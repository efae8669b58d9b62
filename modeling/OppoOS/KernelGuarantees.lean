import OppoOS.KernelRuns
import OppoOS.RoundRobin

/-!
# What the kernel guarantees from power-on

Over every run of the whole kernel, whatever was in memory and whatever the programs do:
address spaces keep their layout and stay apart, no page is lost and no allocation fails, a
process that does not run is left alone, and a trap returns to the memory it came from.
-/
namespace KernelGuarantees

open ByteMemory BuddyTiling AllocatorRefinement RiscV Paging PageTables PageGrants AddressSpace
open PageTableMap Processes ProcessSpace Mmu SpaceLayout DeviceInit KernelMemory KernelRuns Function
open SystemCalls hiding Event Step Booted Reachable
open TrapCoherence (OwnContext InUser Coherent WithinTrap Carries Switched dispatched)
open Isolation (UserReach IsolationFacts)
open BuddyAllocator (pageSize)

/-- What user code of the process finds at a virtual address. -/
def sees (s : State) (p : Fin procsMax) (v : ℕ) : Option UInt8 :=
  (userAccess s.mem (s.kernel.procs p).pageTable v).map s.mem

structure SameMemory (p : Fin procsMax) (s t : State) : Prop where
  access : ∀ v, userAccess t.mem (t.kernel.procs p).pageTable v =
    userAccess s.mem (s.kernel.procs p).pageTable v
  sees : ∀ v, v < 2 ^ 64 → sees t p v = sees s p v

/-- Runs in which the process is never in user mode. -/
inductive Undisturbed (l : Layout) (drivers : List Block) (p : Fin procsMax) :
    List ℕ → State → State → Prop where
  | nil (s) : Undisturbed l drivers p [] s s
  | tail {s sizes t e u} : Undisturbed l drivers p sizes s t → Step l drivers t e u →
      ¬ InUser t p → Undisturbed l drivers p (e.sizes ++ sizes) s u

def kernelCall : Event → Option SystemCalls.Event
  | .kernel e => some e
  | _ => none

abbrev During (l : Layout) (drivers : List Block) (p : Fin procsMax) :
    State → List UInt8 → State → Prop :=
  WithinTrap (Step l drivers) kernelCall p

section
variable {l : Layout} {drivers : List Block} {sizes : List ℕ} {s t u : State} {e : Event}
  {loc loc' : Fin procsMax → List ℕ → Option ℕ} {frames frames' : Fin procsMax → List ℕ}
  {p : Fin procsMax}

theorem SameMemory.refl (p : Fin procsMax) (s : State) : SameMemory p s s :=
  ⟨fun _ => rfl, fun _ _ => rfl⟩

theorem SameMemory.trans (h : SameMemory p s t) (h' : SameMemory p t u) : SameMemory p s u :=
  ⟨fun v => (h'.access v).trans (h.access v), fun v hv => (h'.sees v hv).trans (h.sees v hv)⟩

theorem access_of_tables (h : Invariant l drivers sizes s loc frames) (hp : Used s p)
    (hroot : (t.kernel.procs p).pageTable = (s.kernel.procs p).pageTable)
    (htables : ∀ x, InTables (loc p) x → t.mem x = s.mem x) (v : ℕ) :
    userAccess t.mem (t.kernel.procs p).pageTable v =
      userAccess s.mem (s.kernel.procs p).pageTable v := by
  have htable := h.spaces.isolated.table p hp
  have hM := Isolation.spaceLeaves_readable l (imageSize sizes p) (frames p)
  have htable' : PageTable t.mem (s.kernel.procs p).pageTable (loc p)
      (spaceLeaves l (imageSize sizes p) (frames p)) := by
    apply htable.frame
    intro q a hq x h1 h2
    exact htables x ⟨q, a, hq, h1, h2⟩
  rw [hroot]
  by_cases hv : Canonical v
  · rw [userAccess_pageTable htable' hM hv, userAccess_pageTable htable hM hv]
  · simp [userAccess, Mmu.translate, hv]

theorem sameMemory_of_frames (h : Invariant l drivers sizes s loc frames) (hp : Used s p)
    (hroot : (t.kernel.procs p).pageTable = (s.kernel.procs p).pageTable)
    (htables : ∀ x, InTables (loc p) x → t.mem x = s.mem x)
    (hframes : ∀ f ∈ frames p, ∀ x, InPage f x → t.mem x = s.mem x) : SameMemory p s t := by
  have haccess := access_of_tables h hp hroot htables
  refine ⟨haccess, fun v hv => ?_⟩
  rw [sees, sees, haccess]
  cases hx : userAccess s.mem (s.kernel.procs p).pageTable v with
  | none => rfl
  | some x =>
    obtain ⟨f, hf, hin⟩ := h.spaces.isolated.reach_frame hp ⟨v, hv, hx⟩
    exact congrArg some (hframes f hf x hin)

/-- The kernel's own steps change the memory of no process, the current one included. -/
theorem sameMemory_of_quiet (h : Invariant l drivers sizes s loc frames) (hp : Used s p)
    (hq : Quiet l s t) : SameMemory p s t := by
  have hhigh : ∀ x, l.freeRam ≤ x → t.mem x = s.mem x := fun x hx =>
    hq.mem x fun hin => absurd (inStacks_low l hin) (not_lt.mpr hx)
  apply sameMemory_of_frames h hp (hq.pageTable p)
  · exact fun x hx => hhigh x (h.table_bytes hp hx).1
  · exact fun f hf x hx => hhigh x (h.frame_bytes hp hf hx).1

structure Untouched (p : Fin procsMax) (s t : State) (loc loc' : Fin procsMax → List ℕ → Option ℕ)
    (frames frames' : Fin procsMax → List ℕ) : Prop where
  used : Used t p
  loc_eq : loc' p = loc p
  frames_eq : frames' p = frames p
  tables : ∀ x, InTables (loc p) x → t.mem x = s.mem x
  memory : SameMemory p s t

theorem undisturbed_kept {sizes' : List ℕ} (h : Invariant l drivers sizes s loc frames)
    (hp : Used s p) (hr : Undisturbed l drivers p sizes' s t) :
    ∃ loc' frames', Invariant l drivers (sizes' ++ sizes) t loc' frames' ∧
      Untouched p s t loc loc' frames frames' := by
  induction hr with
  | nil => exact ⟨loc, frames, h, hp, rfl, rfl, fun _ _ => rfl, .refl p _⟩
  | tail _ hs hno ih =>
    obtain ⟨loc₁, frames₁, h₁, hu⟩ := ih h hp
    obtain ⟨loc₂, frames₂, h₂, hk⟩ := step_invariant h₁ hs
    obtain ⟨hp₂, hloc, hframes, hroot⟩ := hk.same p hu.used
    have hsame := sameMemory_of_frames h₁ hu.used hroot (hk.tables p hu.used)
      (hk.frames p hu.used hno)
    rw [← List.append_assoc] at h₂
    refine ⟨loc₂, frames₂, h₂, hp₂, hloc.trans hu.loc_eq, hframes.trans hu.frames_eq,
      fun x hx => ?_, hu.memory.trans hsame⟩
    rw [hk.tables p hu.used x (hu.loc_eq ▸ hx), hu.tables x hx]

theorem kernel_step {c : SystemCalls.Event} (hs : Step l drivers s (.kernel c) t) :
    SystemCalls.Step l s c t := by
  cases hs with
  | kernel c t hk hs => exact hs

theorem kernelCall_eq {c : SystemCalls.Event} : kernelCall e = some c ↔ e = .kernel c := by
  cases e <;> simp [kernelCall]

theorem step_carries (h : TrapInvariant.Invariant l s) (hs : Step l drivers s e t)
    (he : ¬ (kernelCall e = some .sysret ∧ s.current = p)) :
    Carries p s ((kernelCall e).elim [] (TrapCoherence.consumed p s)) t := by
  cases hs with
  | code t hs hm => exact TrapCoherence.step_carries h hs fun hc => by cases hc.1
  | kernel e t hk hs =>
    exact TrapCoherence.step_carries h hs fun hc => he ⟨congrArg some hc.1, hc.2⟩
  | _ => exact .of_traps rfl

theorem trapped_not_user (h : TrapInvariant.Invariant l s) {tr : Trap} (htr : s.traps p = some tr) :
    ¬ InUser s p := by
  rintro ⟨rfl, pc, hm⟩
  rw [((TrapInvariant.running_user hm).mp h.running).2.2.1] at htr
  cases htr

theorem during_carries {got : List UInt8} (h : Invariant l drivers sizes s loc frames)
    (hd : During l drivers p s got t) :
    (∃ sizes loc frames, Invariant l drivers sizes t loc frames) ∧ Carries p s got t := by
  refine hd.carries (fun s => ∃ sizes loc frames, Invariant l drivers sizes s loc frames) ?_ ?_
    ⟨sizes, loc, frames, h⟩
  · rintro s e t ⟨_, _, _, h⟩ hs
    obtain ⟨loc', frames', h', -⟩ := step_invariant h hs
    exact ⟨_, loc', frames', h'⟩
  · rintro s e t ⟨_, _, _, h⟩ hs he
    exact step_carries h.trap hs he

theorem during_undisturbed {got : List UInt8} (h : Invariant l drivers sizes s loc frames)
    {tr : Trap} (htr : s.traps p = some tr) (hd : During l drivers p s got t) :
    ∃ sizes', Undisturbed l drivers p sizes' s t := by
  induction hd with
  | nil => exact ⟨[], .nil _⟩
  | tail hd hs he ih =>
    obtain ⟨sizes', hu⟩ := ih
    obtain ⟨⟨_, _, _, h₁⟩, hcarries⟩ := during_carries h hd
    obtain ⟨tr', htr', -⟩ := hcarries tr htr
    exact ⟨_, hu.tail hs (trapped_not_user h₁.trap htr')⟩

def LastChosen (s : State) : Prop :=
  s.mode = .ret → s.current = 0 →
    ∀ i, ¬ ((s.kernel.procs i).state = .runnable ∧ 0 < (s.kernel.procs i).pid)

theorem chosen_last (h : TrapInvariant.Invariant l s) {k : Kernel} {caller : Scheduler.ResumePoint}
    {limit : ℕ} {mode : Mode} (hy : Yields l s k caller limit mode) (hn : nextProc k = 0)
    (i : Fin procsMax) : ¬ ((k.procs i).state = .runnable ∧ 0 < (k.procs i).pid) := by
  have y := TrapInvariant.yields_yielding hy h
  have hidle : (k.procs 0).pid = 0 := y.sched.idle_pid
  rcases Scheduler.nextProc_cases k with ⟨-, hpid⟩ | ⟨-, hnone⟩
  · rw [hn, hidle] at hpid
    exact absurd hpid (lt_irrefl 0)
  · exact hnone i

theorem step_last (h : Invariant l drivers sizes s loc frames) (hl : LastChosen s)
    (hs : Step l drivers s e t) : LastChosen t := by
  have hkernel : ∀ {e'}, SystemCalls.Step l s e' t → LastChosen t := by
    intro e' hs'
    cases hs' with
    | keep k caller limit mode hy hn =>
      intro hm
      obtain ⟨hmode, hno⟩ :=
        TrapInvariant.yields_kept hy (TrapInvariant.yields_yielding hy h.trap) hn
      exact absurd (hmode.symm.trans hm) hno
    | switch k caller limit mode r hy hn hr => exact fun _ hzero i => chosen_last h.trap hy hzero i
    | resume i c hm hc hr =>
      intro hret
      obtain ⟨-, hs⟩ := h.trap.resumed hm hc hr
      have hcode := hs.code
      dsimp only at hret
      rw [hret] at hcode
      exact hcode.elim
    | input c => exact hl
    | work a done m hm hw => exact fun hret => absurd (hm.symm.trans hret) Mode.noConfusion
    | workMain m hm hw => exact fun hret => absurd (hm.symm.trans hret) Mode.noConfusion
    | create image imageSize i t hm => exact fun hret => absurd (hm.symm.trans hret) Mode.noConfusion
    | _ => exact fun hret => by cases hret
  cases hs with
  | code t hs hm => exact hkernel hs
  | kernel e t hk hs => exact hkernel hs
  | device m hm => exact hl
  | create image n i t hm hn hc => exact fun hret => absurd (hm.symm.trans hret) Mode.noConfusion
  | _ => exact fun hret => by cases hret

end

section
variable {δ : Type} {bus : Bus δ} {l : Layout} {blk : BlkDevice} {sizes : List ℕ} {s t u : State}
  {p : Fin procsMax}

theorem kmain_ready {d : δ} (hid : Identifies bus blkPort virtioDeviceBlk d) (l : Layout) (m : Mem)
    (input : List UInt8) :
    ∃ blk s, Reachable bus l blk [] s ∧ Boot.Ready l m s.kernel blk ∧ s.mode = .kmain ∧
      s.input = input ∧ ∀ i, s.sched.resume i = .start := by
  rcases Boot.kmainInit_cases bus l m d with ⟨-, k, blk, d', hk, hready⟩ | ⟨hno, -⟩
  · exact ⟨blk, _, .boot (.mk m d k d' (fun _ => 0) (fun _ => 0) input hk), hready, rfl, rfl,
      fun _ => rfl⟩
  · exact absurd hid hno

theorem shell_dispatched {d : δ} {shell n : ℕ} (hid : Identifies bus blkPort virtioDeviceBlk d)
    (hn : n ≤ maxImage) (hshell : Boot.Embedded l shell n) (m : Mem) (regs : Reg → Word)
    (input : List UInt8) :
    ∃ blk s τ v, Reachable bus l blk [] s ∧ s.mode = .kmain ∧ s.input = input ∧
      createProcess kallocPage l s.kernel.toProcTable shell n = some (1, τ) ∧
      SystemCalls.Step l (created s 1 τ) .yield v ∧
      Switched (created s 1 τ) (created s 1 τ).kernel .yieldReturn .kmain v ∧ v.current = 1 ∧
      SystemCalls.Step l v .dispatch (dispatched v regs) := by
  obtain ⟨blk, s, hr, hready, hm, hinput, hstart⟩ := kmain_ready hid l m input
  obtain ⟨τ, hc, hstarted⟩ := hready.shell hn hshell
  obtain ⟨loc, frames, h⟩ := reachable_invariant (hr.step (.create s shell n 1 τ hm hn hc))
  have hnext : nextProc (created s 1 τ).kernel = 1 := hstarted.next
  have hcur : (created s 1 τ).current = 0 := hready.current
  have hne : nextProc (created s 1 τ).kernel ≠ (created s 1 τ).current := by
    rw [hnext, hcur]
    decide
  have hnew : (created s 1 τ).sched.resume (nextProc (created s 1 τ).kernel) = .start := by
    rw [hnext]
    exact update_self 1 .start s.sched.resume
  obtain ⟨v, hyield, hv, hdispatch⟩ := TrapCoherence.first_entry h.trap hm hne hnew regs
  exact ⟨blk, s, τ, v, hr, hm, hinput, hc, hyield, hv, hv.current.trans hnext, hdispatch⟩

theorem shell_entered {d : δ} {shell n : ℕ} (hid : Identifies bus blkPort virtioDeviceBlk d)
    (hn : n ≤ maxImage) (hshell : Boot.Embedded l shell n) (m : Mem) (regs : Reg → Word)
    (input : List UInt8) :
    ∃ blk s, Reachable bus l blk [n] s ∧ s.regs = regs ∧ s.input = input ∧
      s.mode = .user (BitVec.ofNat 64 userBase) := by
  obtain ⟨blk, s, τ, v, hr, hm, hinput, hc, hyield, hv, -, hdispatch⟩ :=
    shell_dispatched hid hn hshell m regs input
  have hr' := hr.step (.create s shell n 1 τ hm hn hc)
  exact ⟨blk, _, (hr'.step (.kernel _ .yield _ trivial hyield)).step
    (.kernel _ .dispatch _ trivial hdispatch), rfl, hv.input.trans hinput, rfl⟩

/-- What keeps programs, tables and the disk apart, and each program in its own context. -/
structure Separated (l : Layout) (blk : BlkDevice) (s : State) : Prop where
  spaces : IsolationFacts kallocPage l s.kernel.toProcTable
  disk_user : ∀ i, Used s i → ∀ x, UserReach s.kernel.toProcTable i x →
    cover (driverBlocks blk) x = 0
  disk_table : ∀ i, Used s i → ∀ x, Isolation.TableByte s.kernel.toProcTable i x →
    cover (driverBlocks blk) x = 0
  own : ∀ pc, s.mode = .user pc → OwnContext l s s.current

/-- Address spaces stay isolated in the whole kernel, from power-on: through traps, system calls
that change the stacks, switches, exits, creations and whatever the disk writes. -/
theorem kernel_isolated (hr : Reachable bus l blk sizes s) : Separated l blk s := by
  obtain ⟨loc, frames, h⟩ := reachable_invariant hr
  constructor
  · exact Isolation.facts_of_invariant h.spaces.isolated
  · intro i hi x hx
    obtain ⟨f, hf, hin⟩ := h.spaces.isolated.reach_frame hi hx
    exact (h.frame_bytes hi hf hin).2
  · intro i hi x hx
    exact (h.table_bytes hi (h.spaces.isolated.tableByte hi hx)).2
  · exact fun pc hm => TrapCoherence.user_ownContext h.trap hm

/-- Every address space keeps the layout it was created with. -/
theorem spaces_laid_out (hr : Reachable bus l blk sizes s) (i : Fin procsMax) (hi : Used s i) :
    LaidOut l s.mem (s.kernel.procs i).pageTable (imageSize sizes i) := by
  obtain ⟨loc, frames, h⟩ := reachable_invariant hr
  exact laidOut_of_table (h.spaces.isolated.table i hi) (h.spaces.frames_length i hi)
    (imageSize_le h.accepted i)

/-- A process that does not run finds its memory as it left it. -/
theorem process_undisturbed (hr : Reachable bus l blk sizes s) (hp : Used s p) {sizes' : List ℕ}
    (hd : Undisturbed l (driverBlocks blk) p sizes' s t) : Used t p ∧ SameMemory p s t := by
  obtain ⟨loc, frames, h⟩ := reachable_invariant hr
  obtain ⟨loc', frames', -, hu⟩ := undisturbed_kept h hp hd
  exact ⟨hu.used, hu.memory⟩

/-- A trap returns behind its `ecall`, to the registers and the memory it came from, whatever
happens in between. -/
theorem syscall_transparent (hr : Reachable bus l blk sizes s) {pc : Word} (hm : s.mode = .user pc)
    {s₁ : State} (hs : Step l (driverBlocks blk) s (.kernel .ecall) s₁) {got : List UInt8}
    (hd : During l (driverBlocks blk) s.current s₁ got t) (hc : t.current = s.current)
    (hret : Step l (driverBlocks blk) t (.kernel .sysret) u) :
    Coherent l s pc got u ∧ SameMemory s.current s u := by
  obtain ⟨loc, frames, h⟩ := reachable_invariant hr
  have hp := h.current_used
  have hecall := kernel_step hs
  have hq := quiet_of_step h.trap hecall trivial
  obtain ⟨h₁, -⟩ := h.quiet_step (TrapInvariant.step_invariant h.trap hecall) hq
  have htr := TrapCoherence.ecall_trap hm hecall
  obtain ⟨sizes', hu⟩ := during_undisturbed h₁ htr hd
  obtain ⟨loc', frames', h', hkept⟩ := undisturbed_kept h₁ (mt (hq.unused _).mp hp) hu
  obtain ⟨-, hcarries⟩ := during_carries h₁ hd
  obtain ⟨tr, htr', hregs, hpc, hgot⟩ := hcarries _ htr
  have hq' := quiet_of_step h'.trap (kernel_step hret) trivial
  exact ⟨TrapCoherence.return_coherent h'.trap (hc ▸ htr') (kernel_step hret) hc hregs hpc hgot,
    (sameMemory_of_quiet h hp hq).trans
      (hkept.memory.trans (sameMemory_of_quiet h' hkept.used hq'))⟩

/-- No page is lost: those in use are the tables and the user pages of the processes. -/
structure Accounted (l : Layout) (blk : BlkDevice) (sizes : List ℕ) (s : State) : Prop where
  granted : ∀ a, a ∈ s.kernel.pages.granted ↔ ∃ i, Used s i ∧
    ((∃ k, InUse s.mem (s.kernel.procs i).pageTable k a) ∨
      (pageSize ∣ a ∧ UserReach s.kernel.toProcTable i a))
  count : s.kernel.pages.granted.length = pagesTaken l sizes
  free : freePages (heapOf l) (driverBlocks blk) s.kernel.pages.granted + pagesTaken l sizes = 32765

theorem frame_reached {drivers : List Block} {loc : Fin procsMax → List ℕ → Option ℕ}
    {frames : Fin procsMax → List ℕ} (h : Invariant l drivers sizes s loc frames)
    {i : Fin procsMax} (hi : Used s i) {f : ℕ} (hf : f ∈ frames i) :
    pageSize ∣ f ∧ UserReach s.kernel.toProcTable i f := by
  have htable := h.spaces.isolated.table i hi
  have hlen := h.spaces.frames_length i hi
  have hn := imageSize_le h.accepted i
  have hroom : userBase + imageSize sizes i ≤ virtioPaddr := by
    simp only [maxImage, userBase, virtioPaddr] at hn ⊢
    omega
  rw [← List.map_snd_zip hlen.le] at hf
  obtain ⟨r, hr, rfl⟩ := List.mem_map.mp hf
  have hleaf := spaceLeaves_image (l := l) hroom hlen hr
  obtain ⟨k, hk, hoff⟩ := mem_pageAddrs.mp (List.of_mem_zip hr).1
  have hlow : userBase + r.1 < 2 ^ 38 ∧ (userBase + r.1) % pageSize = 0 := by
    simp only [maxImage, userBase, pageSize] at hn hk hoff ⊢
    omega
  refine ⟨(htable.frames hleaf).1.1, userBase + r.1, hlow.1.trans (by decide), ?_⟩
  rw [userAccess_pageTable htable (Isolation.spaceLeaves_readable l _ _) (.inl hlow.1), hleaf]
  dsimp only [Option.bind_some]
  rw [hlow.2, if_pos (by decide)]
  rfl

theorem pages_accounted (hr : Reachable bus l blk sizes s) : Accounted l blk sizes s := by
  obtain ⟨loc, frames, h⟩ := reachable_invariant hr
  refine ⟨fun a => ⟨?_, ?_⟩, h.taken, ?_⟩
  · intro ha
    obtain ⟨i, hi, ⟨p, hp⟩ | hf⟩ := h.spaces.owners a ha
    · have htable := h.spaces.isolated.table i hi
      exact ⟨i, hi, .inl ⟨_, inUse_of_loc htable p hp⟩⟩
    · exact ⟨i, hi, .inr (frame_reached h hi hf)⟩
  · rintro ⟨i, hi, ⟨k, hk⟩ | ⟨ha, hreach⟩⟩
    · obtain ⟨p, hp, -⟩ := loc_of_inUse (h.spaces.isolated.table i hi) hk
      exact h.spaces.isolated.tables_granted i hi p a hp
    · obtain ⟨f, hf, hin⟩ := h.spaces.isolated.reach_frame hi hreach
      obtain ⟨hd, -⟩ := frame_reached h hi hf
      have he : a = f := by
        simp only [InPage, pageSize] at hin hd ha
        omega
      rw [he]
      exact h.spaces.isolated.frames_granted i hi f hf
  · have hadd := h.spaces.isolated.owned.freePages_add
    have htaken := h.taken
    have hleft := h.left
    change s.kernel.pages.granted.length = _ at htaken
    omega

/-- In every state the kernel can reach, `create_process` fails only for want of a slot; no
allocation it makes fails, and the new address space is complete. -/
theorem creation_never_fails (hr : Reachable bus l blk sizes s) (image n : ℕ) (hn : n ≤ maxImage) :
    (createProcess kallocPage l s.kernel.toProcTable image n = none ↔
      procsMax - 1 ≤ sizes.length) ∧
    ∀ i t, createProcess kallocPage l s.kernel.toProcTable image n = some (i, t) →
      (i : ℕ) = sizes.length + 1 ∧ 0 ∉ t.pages.granted ∧
        LaidOut l t.pages.mem (t.procs i).pageTable n := by
  obtain ⟨loc, frames, h⟩ := reachable_invariant hr
  have hk := kallocPage_allocator (heapOf l) (driverBlocks blk)
  refine ⟨h.create_none_iff image hn, ?_⟩
  intro i t hc
  have hok := h.create_served hn hc
  obtain ⟨hfree, -, -⟩ := createProcess_cases hc
  obtain ⟨newLoc, newFrames, hs⟩ := createProcess_space hk h.spaces.isolated.owned hc hok
  exact ⟨h.slots.find hfree, hok, laidOut_of_table hs.space.table hs.length hn⟩

theorem reachable_last (hr : Reachable bus l blk sizes s) : LastChosen s := by
  induction hr with
  | boot hb =>
    cases hb
    exact fun hret => by cases hret
  | step hr hs ih =>
    obtain ⟨loc, frames, h⟩ := reachable_invariant hr
    exact step_last h ih hs

/-- `yield` comes back to `kmain`, which then panics, only when no other process is left. -/
theorem kmain_returns_last (hr : Reachable bus l blk sizes s) {e : SystemCalls.Event}
    (he : e = .yield ∨ e = .resume) (hs : Step l (driverBlocks blk) s (.kernel e) t)
    (hm : t.mode = .kmain) (i : Fin procsMax) :
    (t.kernel.procs i).state = .runnable ↔ i = 0 := by
  obtain ⟨loc, frames, h⟩ := reachable_invariant hr
  obtain ⟨loc', frames', h'⟩ := reachable_invariant (hr.step hs)
  have hnone : ∀ i, ¬ ((t.kernel.procs i).state = .runnable ∧ 0 < (t.kernel.procs i).pid) := by
    cases hs with
    | kernel e t hk hs =>
      cases hs with
      | keep k caller limit mode hy hn =>
        obtain ⟨hmode, -⟩ :=
          TrapInvariant.yields_kept hy (TrapInvariant.yields_yielding hy h.trap) hn
        have hzero := ((TrapInvariant.running_kmain (hmode.symm.trans hm)).mp h.trap.running).2.1
        have hlast := chosen_last h.trap hy (hn.trans hzero)
        exact hlast
      | switch k caller limit mode r hy hn hr => cases hm
      | resume j c hret hc hr' =>
        obtain ⟨hj, hsus⟩ := h.trap.resumed hret hc hr'
        have hcode := hsus.code
        dsimp only at hm
        rw [hm] at hcode
        have hlast := reachable_last hr hret (hj.symm.trans hcode.1)
        exact hlast
      | _ => rcases he with he | he <;> cases he
  constructor
  · intro hrun
    by_contra hi
    have hused : (t.kernel.procs i).state ≠ .unused := by
      rw [hrun]
      exact ProcState.noConfusion
    have hpid : (t.kernel.procs i).pid = i + 1 := h'.trap.sched.pid_slot i hi hused
    exact hnone i ⟨hrun, by rw [hpid]; exact Nat.succ_pos _⟩
  · rintro rfl
    exact h'.trap.sched.idle_runnable

end

theorem sample_user (regs : Reg → Word) (input : List UInt8) :
    ∃ blk s, Reachable sampleBus sampleLayout blk [0x1000] s ∧ s.regs = regs ∧
      s.input = input ∧ s.mode = .user (BitVec.ofNat 64 userBase) :=
  shell_entered sampleBus_identifies (by decide) Boot.sample_embedded (fun _ => 0) regs input

theorem sample_shell_isolated : ∃ blk s pc, s.mode = .user pc ∧ Separated sampleLayout blk s := by
  obtain ⟨blk, s, hr, -, -, hm⟩ := sample_user (fun _ => 0) []
  exact ⟨blk, s, _, hm, kernel_isolated hr⟩

theorem sample_shell_laid_out : ∃ s : State, s.current ≠ 0 ∧
    LaidOut sampleLayout s.mem (s.kernel.procs s.current).pageTable
      (imageSize [0x1000] s.current) := by
  obtain ⟨blk, s, hr, -, -, hm⟩ := sample_user (fun _ => 0) []
  obtain ⟨loc, frames, h⟩ := reachable_invariant hr
  have hi := ((TrapInvariant.running_user hm).mp h.trap.running).1
  exact ⟨s, hi, spaces_laid_out hr s.current h.current_used⟩

theorem sample_two_created : ∃ blk s, Reachable sampleBus sampleLayout blk [0x1000, 0x1000] s ∧
    s.mode = .kmain ∧ s.current = 0 ∧ s.input = [] ∧
    (∀ i, i = 1 ∨ i = 2 → (s.kernel.procs i).state = .runnable ∧ s.sched.resume i = .start) := by
  obtain ⟨blk, s, hr, hready, hm, hinput, -⟩ :=
    kmain_ready sampleBus_identifies sampleLayout (fun _ => 0) []
  have hn : 0x1000 ≤ maxImage := by decide
  obtain ⟨hiff, hsome⟩ := creation_never_fails hr kernelBase 0x1000 hn
  obtain ⟨⟨i, τ⟩, hc⟩ := Option.ne_none_iff_exists'.mp (mt hiff.mp (by decide))
  obtain rfl : i = 1 := Fin.ext (hsome i τ hc).1
  have hr₁ := hr.step (.create s kernelBase 0x1000 1 τ hm hn hc)
  obtain ⟨hiff₁, hsome₁⟩ := creation_never_fails hr₁ kernelBase 0x1000 hn
  obtain ⟨⟨i, τ₁⟩, hc₁⟩ := Option.ne_none_iff_exists'.mp (mt hiff₁.mp (by decide))
  obtain rfl : i = 2 := Fin.ext (hsome₁ i τ₁ hc₁).1
  refine ⟨blk, _, hr₁.step (.create _ kernelBase 0x1000 2 τ₁ hm hn hc₁), hm, hready.current, hinput,
    ?_⟩
  have hprocs : τ.procs = _ := (createProcess_cases hc).2.2
  have hprocs₁ : τ₁.procs = update τ.procs 2 _ := (createProcess_cases hc₁).2.2
  rintro i (rfl | rfl)
  · constructor
    · change (τ₁.procs 1).state = _
      rw [hprocs₁, update_of_ne (by decide), hprocs, update_self]
    · change update (update s.sched.resume 1 .start) 2 .start 1 = _
      rw [update_of_ne (by decide), update_self]
  · constructor
    · change (τ₁.procs 2).state = _
      rw [hprocs₁, update_self]
    · change update (update s.sched.resume 1 .start) 2 .start 2 = _
      rw [update_self]

/-- The first process asks for a character that is not there, and the second is to run. -/
theorem sample_first_waits : ∃ blk s a, Reachable sampleBus sampleLayout blk [0x1000, 0x1000] s ∧
    s.mode = .handler a false ∧ field s.mem a.frame .a3 = sysGetc ∧ s.input = [] ∧
    s.current = 1 ∧ nextProc s.kernel = 2 ∧ s.sched.resume 2 = .start := by
  obtain ⟨blk, s, hr, hm, hcur, hinput, hprocs⟩ := sample_two_created
  obtain ⟨loc, frames, h⟩ := reachable_invariant hr
  have hdist : RoundRobin.slotDistance s.current 1 = 1 := by
    rw [hcur]
    decide
  have hnext : nextProc s.kernel = 1 :=
    RoundRobin.nextProc_adjacent h.trap.sched (by decide) (hprocs 1 (.inl rfl)).1 hdist
  have hstart := (hprocs 1 (.inl rfl)).2
  rw [← hnext] at hstart
  obtain ⟨v, hyield, hv, hdispatch⟩ := TrapCoherence.first_entry h.trap hm
    (by rw [hnext, hcur]; decide) hstart fun r => if r = .a3 then sysGetc else 0
  have hr₁ := (hr.step (.kernel _ .yield _ trivial hyield)).step
    (.kernel _ .dispatch _ trivial hdispatch)
  obtain ⟨loc₁, frames₁, h₁⟩ := reachable_invariant hr₁
  obtain ⟨t, a, hecall, ht, hmode, hfield⟩ := TrapCoherence.ecall_enters h₁.trap rfl
  have hr₂ := hr₁.step (.kernel _ .ecall _ trivial hecall)
  obtain ⟨loc₂, frames₂, h₂⟩ := reachable_invariant hr₂
  have hcur₂ : t.current = 1 :=
    (TrapInvariant.current_withMem ht.sched).trans (hv.current.trans hnext)
  have hrun : (t.kernel.procs 2).state = .runnable := by
    rw [TrapInvariant.procs_withMem ht.sched, dispatched, hv.procs]
    exact (hprocs 2 (.inr rfl)).1
  have hresume : t.sched.resume 2 = .start := by
    rw [ht.sched]
    change v.sched.resume 2 = _
    rw [hv.resume, hcur, update_of_ne (by decide)]
    exact (hprocs 2 (.inr rfl)).2
  have hdist₂ : RoundRobin.slotDistance t.current 2 = 1 := by
    rw [hcur₂]
    decide
  exact ⟨blk, t, a, hr₂, hmode, hfield, ht.input.trans (hv.input.trans hinput), hcur₂,
    RoundRobin.nextProc_adjacent h₂.trap.sched (by decide) hrun hdist₂, hresume⟩

/-- While one process waits in `SYS_GETC`, another one stores. -/
theorem sample_waiting_undisturbed : ∃ (s t : State) (a : Activation),
    s.mode = .handler a false ∧ s.current = 1 ∧ field s.mem a.frame .a3 = sysGetc ∧
    (sees s 1 userBase).isSome ∧ sees t 2 userBase = some 7 ∧ SameMemory 1 s t := by
  obtain ⟨blk, s, a, hr, hmode, hfield, hinput, hcur, hnext, hstart⟩ := sample_first_waits
  obtain ⟨loc, frames, h⟩ := reachable_invariant hr
  have hne : nextProc s.kernel ≠ s.current := by
    rw [hnext, hcur]
    decide
  obtain ⟨v, hyield, hv⟩ := TrapCoherence.yield_switches h.trap (.getc a hmode hfield hinput) hne
  have hr₁ := hr.step (.kernel _ .yield _ trivial hyield)
  obtain ⟨loc₁, frames₁, h₁⟩ := reachable_invariant hr₁
  have hcontrol : v.sched.control = .start := by
    rw [hv.control, update_of_ne hne, hnext, hstart]
  obtain ⟨u, hdispatch, hm, hcur₂⟩ : ∃ u, SystemCalls.Step sampleLayout v .dispatch u ∧
      u.mode = .user (BitVec.ofNat 64 userBase) ∧ u.current = 2 :=
    ⟨_, TrapCoherence.ret_dispatches h₁.trap hv.ret hcontrol fun _ => 0, rfl,
      hv.current.trans hnext⟩
  have hr₂ : Reachable _ _ _ [0x1000, 0x1000] u := hr₁.step (.kernel _ .dispatch _ trivial hdispatch)
  obtain ⟨loc₂, frames₂, h₂⟩ := reachable_invariant hr₂
  have hused : Used u 2 := hcur₂ ▸ h₂.current_used
  obtain ⟨x, hw⟩ := Isolation.image_writable (h₂.spaces.isolated.table 2 hused)
    (h₂.spaces.frames_length 2 hused) (imageSize_le h₂.accepted 2) (by decide)
  have hroot := h₂.rootOf_satp hm
  rw [hcur₂] at hroot
  obtain ⟨t, hstore, hmem, hprocs⟩ : ∃ t, Step sampleLayout (driverBlocks blk) u .store t ∧
      t.mem = store8 u.mem x 7 ∧ t.kernel.procs = u.kernel.procs :=
    ⟨_, .store u _ u.regs 0 userBase 7 x hm (by decide) (by rwa [hroot]), rfl, rfl⟩
  obtain ⟨_, _, -, hkept⟩ := step_invariant h₂ hstore
  have hsees : sees t 2 userBase = some 7 := by
    rw [sees, access_of_tables h₂ hused (by rw [hprocs]) (hkept.tables 2 hused),
      userAccess_of_userWrite hw, Option.map_some, hmem]
    exact congrArg some (if_pos rfl)
  have hp : Used s 1 := hcur ▸ h.current_used
  have hund := (((Undisturbed.nil s).tail (.kernel _ .yield _ trivial hyield) (p := 1)
    fun ⟨_, pc, hpc⟩ => by rw [hmode] at hpc; cases hpc).tail (.kernel _ .dispatch _ trivial hdispatch)
    fun ⟨_, pc, hpc⟩ => by rw [hv.ret] at hpc; cases hpc).tail hstore
    fun ⟨hc, _⟩ => by rw [hcur₂] at hc; exact absurd hc (by decide)
  obtain ⟨y, hmaps⟩ := (spaces_laid_out hr 1 hp).image 0 (by decide)
  have hsome : (sees s 1 userBase).isSome := by
    rw [sees, ← Nat.add_zero userBase, access_of_maps hmaps]
    rfl
  exact ⟨s, t, a, hmode, hcur, hfield, hsome, hsees, (process_undisturbed hr hp hund).2⟩

/-- The shell asks for a character. -/
theorem sample_getc_transparent : ∃ s u : State, s.regs .a3 = sysGetc ∧ s.input = [120] ∧
    Coherent sampleLayout s (BitVec.ofNat 64 userBase) [120] u ∧ SameMemory s.current s u := by
  obtain ⟨blk, s, hr, hregs, hinput, hm⟩ :=
    sample_user (fun r => if r = .a3 then sysGetc else 0) [120]
  obtain ⟨loc, frames, h⟩ := reachable_invariant hr
  have hcall : s.regs .a3 = sysGetc := by
    rw [hregs]
    rfl
  obtain ⟨s₁, a, hecall, hspec, hmode, hfield⟩ := TrapCoherence.ecall_enters h.trap hm
  have hcur : s₁.current = s.current := TrapInvariant.current_withMem hspec.sched
  obtain ⟨t, hget, hdone, hcur'⟩ : ∃ t, SystemCalls.Step sampleLayout s₁ (.getc 120) t ∧
      t.mode = .handler a true ∧ t.current = s.current :=
    ⟨_, .getc s₁ a 120 [] hmode (hfield.trans hcall) (hspec.input.trans hinput), rfl, hcur⟩
  have hstep : Step sampleLayout (driverBlocks blk) s₁ (.kernel (.getc 120)) t :=
    .kernel _ (.getc 120) _ trivial hget
  have hd : During sampleLayout (driverBlocks blk) s.current s₁ _ t :=
    (WithinTrap.nil s₁).tail hstep fun hc => by cases hc.1
  have hgot : [] ++ (kernelCall (.kernel (.getc 120))).elim []
      (TrapCoherence.consumed s.current s₁) = [120] := by
    simp only [kernelCall, Option.elim_some, TrapCoherence.consumed, hcur, if_true,
      List.nil_append]
  rw [hgot] at hd
  have hsame := syscall_transparent hr hm (.kernel _ .ecall _ trivial hecall) hd hcur'
    (.kernel _ .sysret _ trivial (.sysret t a a.entry hdone rfl fun _ _ _ => rfl))
  exact ⟨s, _, hcall, hinput, hsame⟩

theorem sample_pages_accounted : ∃ blk s, Accounted sampleLayout blk [0x1000] s := by
  obtain ⟨blk, s, hr, -, -, -⟩ := sample_user (fun _ => 0) []
  exact ⟨blk, s, pages_accounted hr⟩

/-- The shell may create the largest process. -/
theorem sample_creation : ∃ s : State, ∃ i t,
    createProcess kallocPage sampleLayout s.kernel.toProcTable kernelBase maxImage = some (i, t) ∧
    (i : ℕ) = 2 ∧ LaidOut sampleLayout t.pages.mem (t.procs i).pageTable maxImage := by
  obtain ⟨blk, s, hr, -, -, -⟩ := sample_user (fun _ => 0) []
  obtain ⟨hiff, hsome⟩ := creation_never_fails hr kernelBase maxImage le_rfl
  obtain ⟨⟨i, t⟩, hc⟩ := Option.ne_none_iff_exists'.mp (mt hiff.mp (by decide))
  obtain ⟨hi, -, hlaid⟩ := hsome i t hc
  exact ⟨s, i, t, hc, hi, hlaid⟩

/-- The shell exits, and `switch_context` is about to return to `kmain`. -/
theorem sample_shell_exits : ∃ blk s c, Reachable sampleBus sampleLayout blk [0x1000] s ∧
    s.mode = .ret ∧ s.current = 0 ∧ s.calls s.current = some c ∧ c.mode = .kmain ∧
    (s.kernel.procs 1).state = .exited := by
  obtain ⟨blk, s, τ, v, hr, hm, -, hc, hyield, hv, hcur, hdispatch⟩ :=
    shell_dispatched sampleBus_identifies (by decide) Boot.sample_embedded (fun _ => 0)
      (fun r => if r = .a3 then sysExit else 0) []
  obtain ⟨loc, frames, h⟩ := reachable_invariant hr
  have hcur₀ := ((TrapInvariant.running_kmain hm).mp h.trap.running).2.1
  have hr₁ := ((hr.step (.create s kernelBase 0x1000 1 τ hm (by decide) hc)).step
    (.kernel _ .yield _ trivial hyield)).step (.kernel _ .dispatch _ trivial hdispatch)
  obtain ⟨loc₁, frames₁, h₁⟩ := reachable_invariant hr₁
  obtain ⟨t, a, hecall, ht, hmode, hfield⟩ := TrapCoherence.ecall_enters h₁.trap rfl
  have hr₂ := hr₁.step (.kernel _ .ecall _ trivial hecall)
  obtain ⟨loc₂, frames₂, h₂⟩ := reachable_invariant hr₂
  have hcur₂ : t.current = 1 := (TrapInvariant.current_withMem ht.sched).trans hcur
  have hexit : ((markExited t.kernel).procs 1).state = .exited := by
    rw [← hcur₂, Scheduler.markExited_self]
  have hzero : nextProc (markExited t.kernel) = 0 := by
    rcases Scheduler.nextProc_cases (markExited t.kernel) with ⟨hrun, hpid⟩ | ⟨hidle, -⟩
    · by_contra hne
      have hother : nextProc (markExited t.kernel) ≠ t.current := by
        intro hcur
        rw [hcur, hcur₂, hexit] at hrun
        cases hrun
      rw [Scheduler.markExited_other _ hother] at hrun
      have hused : Used t (nextProc (markExited t.kernel)) := by
        rw [Used, hrun]
        exact ProcState.noConfusion
      have hle := (h₂.slots _).mp hused
      rw [hcur₂] at hother
      have hpos := Fin.val_ne_of_ne hne
      have hone := Fin.val_ne_of_ne hother
      change _ ≤ 1 at hle
      change _ ≠ 0 at hpos
      change _ ≠ 1 at hone
      omega
    · exact hidle.trans h₂.trap.sched.idle_slot
  have hne : nextProc (markExited t.kernel) ≠ t.current := by
    rw [hzero, hcur₂]
    decide
  obtain ⟨u, hexits, hu⟩ := TrapCoherence.yield_switches h₂.trap (.exit a hmode hfield) hne
  obtain ⟨c, hmain, hcalls⟩ := hv.calls
  obtain ⟨c', -, hcalls'⟩ := hu.calls
  have hcur₃ : u.current = 0 := hu.current.trans hzero
  refine ⟨blk, u, c, hr₂.step (.kernel _ .yield _ trivial hexits), hu.ret, hcur₃, ?_, hmain, ?_⟩
  · rw [hcur₃, hcalls', hcur₂, update_of_ne (by decide), ht.calls, dispatched, hcalls]
    change update s.calls s.current (some c) 0 = _
    rw [hcur₀, update_self]
  · rw [hu.procs]
    exact hexit

/-- The shell exits and `kmain` is resumed. -/
theorem sample_kmain_returns : ∃ t : State, t.mode = .kmain ∧
    (t.kernel.procs 1).state = .exited ∧
    ∀ i, (t.kernel.procs i).state = .runnable ↔ i = 0 := by
  obtain ⟨blk, s, c, hr, hret, -, hc, hkmain, hx⟩ := sample_shell_exits
  obtain ⟨loc, frames, h⟩ := reachable_invariant hr
  obtain ⟨t, hs, hm, hx'⟩ : ∃ t, SystemCalls.Step sampleLayout s .resume t ∧ t.mode = .kmain ∧
      (t.kernel.procs 1).state = .exited :=
    ⟨_, TrapCoherence.ret_resumes h.trap hret hc, hkmain, hx⟩
  exact ⟨t, hm, hx', kmain_returns_last hr (.inr rfl) (.kernel _ .resume _ trivial hs) hm⟩

end KernelGuarantees
