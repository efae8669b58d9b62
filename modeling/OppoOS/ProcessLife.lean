import OppoOS.KernelProgress
import OppoOS.PointerTranslation

/-!
# From `create_process` to `proc_exit`

What a new process finds when it first gets to user mode, however long it waited, and what
is left of one that has exited.
-/
namespace ProcessLife

open ByteMemory BuddyTiling RiscV Paging PageTables PageGrants AddressSpace Processes
open ProcessSpace Mmu SpaceLayout DeviceInit KernelMemory KernelRuns KernelGuarantees Function
open SystemCalls hiding Event Step Booted Reachable
open TrapCoherence (InUser Waiting)
open Loader (loadedSize)
open BuddyAllocator (pageSize)

/-- What user code of a process with the image `content` finds at a virtual address. -/
def imageView (content : ℕ → UInt8) (n v : ℕ) : Option UInt8 :=
  if userBase ≤ v ∧ v < userBase + loadedSize n then
    some (if v - userBase < n then content (v - userBase) else 0)
  else none

structure Entered (p : Fin procsMax) (content : ℕ → UInt8) (n : ℕ) (s : State) : Prop where
  mode : s.mode = .user (BitVec.ofNat 64 userBase)
  sees : ∀ v, v < 2 ^ 64 → sees s p v = imageView content n v

inductive Continues (l : Layout) (drivers : List Block) : List ℕ → State → State → Prop where
  | nil (s) : Continues l drivers [] s s
  | tail {s sizes t e u} : Continues l drivers sizes s t → Step l drivers t e u →
      Continues l drivers (e.sizes ++ sizes) s u

def Holds (s : State) (p : Fin procsMax) (x : ℕ) : Prop :=
  Isolation.TableByte s.kernel.toProcTable p x ∨ Isolation.UserReach s.kernel.toProcTable p x

/-- An exited process keeps its slot and is never current; its tables and pages are neither
written nor given back. -/
structure Gone (p : Fin procsMax) (s t : State) : Prop where
  slot : t.kernel.procs p = s.kernel.procs p
  never : t.current ≠ p
  memory : SameMemory p s t
  bytes : ∀ x, Holds s p x → t.mem x = s.mem x
  granted : ∀ x, Holds s p x → ∃ a ∈ t.kernel.pages.granted, InPage a x
  not_free : ∀ x, Holds s p x → ¬ Isolation.FreeByte t.kernel.pages.toMachine x

section
variable {l : Layout} {drivers : List Block} {sizes sizes' : List ℕ} {s t : State} {e : Event}
  {loc loc' : Fin procsMax → List ℕ → Option ℕ} {frames frames' : Fin procsMax → List ℕ}
  {p : Fin procsMax}

theorem waiting_of_sched {m : Mem} (hw : Waiting s p) (ht : t.sched = withMem s.sched m)
    (hm : s.mode = .ret → t.mode = .ret) : Waiting t p := by
  rcases hw with ⟨hne, hused, hstart⟩ | ⟨hcur, hret, hstart⟩
  · exact TrapCoherence.waiting_sched ht hne hused hstart
  · refine .inr ⟨?_, hm hret, ?_⟩
    · rwa [TrapInvariant.current_withMem ht]
    · rwa [ht]

theorem step_waiting (h : Invariant l drivers sizes s loc frames) (hw : Waiting s p)
    (hs : Step l drivers s e t) :
    Waiting t p ∨ (t.current = p ∧ t.mode = .user (BitVec.ofNat 64 userBase)) := by
  have hmode : ∀ {m : Mode}, s.mode = m → m ≠ .ret → s.mode = .ret → t.mode = .ret :=
    fun hm hne hret => absurd (hm.symm.trans hret) hne
  cases hs with
  | compute pc regs pc' hm =>
    exact .inl (waiting_of_sched (m := s.mem) hw rfl (hmode hm Mode.noConfusion))
  | store pc regs pc' v byte x hm hv hx =>
    exact .inl (waiting_of_sched hw rfl (hmode hm Mode.noConfusion))
  | code t hs hx => exact TrapCoherence.step_waiting h.trap hw hs
  | device m hx => exact .inl (waiting_of_sched hw rfl id)
  | create image n i τ hm hn hc =>
    have hok := h.create_served hn hc
    exact TrapCoherence.step_waiting h.trap hw
      (.create s image n i τ hm ⟨_, h.spaces.isolated.owned⟩ hc hok)
  | noSlot image n hm hn hc =>
    exact .inl (waiting_of_sched (m := s.mem) hw rfl (hmode hm Mode.noConfusion))
  | kernel e t he hs => exact TrapCoherence.step_waiting h.trap hw hs

theorem undisturbed_waiting (h : Invariant l drivers sizes s loc frames) (hused : Used s p)
    (hw : Waiting s p) (hu : Undisturbed l drivers p sizes' s t) :
    Waiting t p ∨ (t.current = p ∧ t.mode = .user (BitVec.ofNat 64 userBase)) := by
  induction hu with
  | nil => exact .inl hw
  | tail hu hs hno ih =>
    obtain ⟨loc₁, frames₁, h₁, -⟩ := undisturbed_kept h hused hu
    rcases ih h hused hw with hw₁ | ⟨hcur, hm⟩
    · exact step_waiting h₁ hw₁ hs
    · exact absurd ⟨hcur, _, hm⟩ hno

theorem created_waiting (h : Invariant l drivers sizes s loc frames) {image n : ℕ}
    {i : Fin procsMax} {τ : ProcTable}
    (hc : createProcess kallocPage l s.kernel.toProcTable image n = some (i, τ)) :
    Waiting (created s i τ) i ∧ Used (created s i τ) i := by
  obtain ⟨hfree, -, hp⟩ := createProcess_cases hc
  have hun : (s.kernel.procs i).state = .unused := (findUnused_spec hfree).1
  have hused : (τ.procs i).state ≠ .unused := by
    rw [hp, update_self]
    exact ProcState.noConfusion
  exact ⟨.inl ⟨(h.trap.current_used hun).symm, hused, update_self _ _ _⟩, hused⟩

/-- The new address space, through the eyes of user code. -/
theorem created_sees (h : Invariant l drivers sizes s loc frames) (hm : s.mode = .kmain)
    {image n : ℕ} {i : Fin procsMax} {τ : ProcTable} (hn : n ≤ maxImage)
    (himage : Boot.Embedded l image n)
    (hc : createProcess kallocPage l s.kernel.toProcTable image n = some (i, τ)) (v : ℕ)
    (hv : v < 2 ^ 64) :
    sees (created s i τ) i v = imageView (fun j => s.mem (image + j)) n v := by
  have hk := kallocPage_allocator (heapOf l) drivers
  have hok := h.create_served hn hc
  obtain ⟨newLoc, newFrames, hs⟩ := createProcess_space hk h.spaces.isolated.owned hc hok
  obtain ⟨loc', frames', h', -⟩ := h.create_step hm hn hc
  obtain ⟨-, hused⟩ := created_waiting h hc
  have hlaid : LaidOut l τ.pages.mem (τ.procs i).pageTable n :=
    laidOut_of_table hs.space.table hs.length hn
  have hroom : userBase + n ≤ virtioPaddr := by
    simp only [maxImage, userBase, virtioPaddr] at hn ⊢
    omega
  change (userAccess τ.pages.mem (τ.procs i).pageTable v).map τ.pages.mem = _
  by_cases hin : userBase ≤ v ∧ v < userBase + loadedSize n
  · obtain ⟨j, rfl⟩ := Nat.exists_eq_add_of_le hin.1
    have hj : j < loadedSize n := by omega
    obtain ⟨x, hmaps⟩ := hlaid.image j hj
    have hacc := access_of_maps hmaps
    have hfacts : PointerTranslation.TranslationFacts τ.pages.mem (τ.procs i).pageTable :=
      PointerTranslation.translation_facts (h'.spaces.isolated.table i hused)
        (Isolation.spaceLeaves_readable l _ _)
        fun _ _ he => PointerTranslation.Invariant.leaf_pos h'.spaces.isolated hused he
    have hbyte := Loader.image_byte hroom hs
      (fun x hlo hhi => .inl (himage x hlo hhi).1) hj
    rw [hfacts.user _ hv x hacc] at hbyte
    rw [hacc, Option.map_some, hbyte, imageView, if_pos hin, Nat.add_sub_cancel_left]
    by_cases hjn : j < n
    · have hout : ¬ InSlot l i (image + j) := fun hslot =>
        (himage _ (by omega) (by omega)).2 (Boot.slot_in_procs hslot)
      rw [if_pos hjn, if_pos hjn, framed_outside l _ hout]
    · rw [if_neg hjn, if_neg hjn]
  · have hnone : userAccess τ.pages.mem (τ.procs i).pageTable v = none := by
      by_contra hne
      obtain ⟨x, hx⟩ := Option.ne_none_iff_exists'.mp hne
      exact hin (image_of_access hlaid hv hx)
    rw [hnone, imageView, if_neg hin]
    rfl

theorem kernel_keeps_exited {e : SystemCalls.Event} (h : TrapInvariant.Invariant l s)
    (hx : (s.kernel.procs p).state = .exited) (hs : SystemCalls.Step l s e t) :
    t.kernel.procs p = s.kernel.procs p := by
  have hne : p ≠ s.current := by
    rintro rfl
    have hrun := h.sched.current_runnable
    rw [hx] at hrun
    cases hrun
  have hyields : ∀ {k caller limit mode}, Yields l s k caller limit mode →
      k.procs p = s.kernel.procs p := by
    intro k caller limit mode hy
    cases hy with
    | getc a hm hf hin => rfl
    | exit a hm hf => exact Scheduler.markExited_other _ hne
    | kmain hm => rfl
  cases hs with
  | keep k caller limit mode hy hn =>
    have hsame := hyields hy
    exact hsame
  | switch k caller limit mode r hy hn hr =>
    have hsame := hyields hy
    exact hsame
  | create image n i τ hm ho hc hok =>
    obtain ⟨hfree, -, hp⟩ := createProcess_cases hc
    have hpi : p ≠ i := by
      rintro rfl
      rw [(findUnused_spec hfree).1] at hx
      cases hx
    change τ.procs p = _
    rw [hp, update_of_ne hpi]
  | ecall pc hm => exact congrFun (TrapInvariant.procs_withMem (trapFrom_sched s pc)) p
  | fault pc hm => exact congrFun (TrapInvariant.procs_withMem (trapFrom_sched s pc)) p
  | sysret a regs hm hsp hsaved =>
    exact congrFun (TrapInvariant.procs_withMem (returnFrom_sched s a regs)) p
  | _ => rfl

theorem step_keeps_exited (h : Invariant l drivers sizes s loc frames)
    (hx : (s.kernel.procs p).state = .exited) (hs : Step l drivers s e t) :
    t.kernel.procs p = s.kernel.procs p := by
  cases hs with
  | code t hs hm => exact kernel_keeps_exited h.trap hx hs
  | create image n i τ hm hn hc =>
    have hok := h.create_served hn hc
    exact kernel_keeps_exited h.trap hx
      (.create s image n i τ hm ⟨_, h.spaces.isolated.owned⟩ hc hok)
  | kernel e t he hs => exact kernel_keeps_exited h.trap hx hs
  | _ => rfl

theorem exited_not_current (h : TrapInvariant.Invariant l s)
    (hx : (s.kernel.procs p).state = .exited) : s.current ≠ p := by
  rintro rfl
  have hrun := h.sched.current_runnable
  rw [hx] at hrun
  cases hrun

theorem held_of_holds (h : Invariant l drivers sizes s loc frames) (hp : Used s p)
    (ht : Invariant l drivers sizes' t loc' frames') (hu : Untouched p s t loc loc' frames frames')
    {x : ℕ} (hx : Holds s p x) :
    t.mem x = s.mem x ∧ (∃ a ∈ t.kernel.pages.granted, InPage a x) ∧
      ¬ Isolation.FreeByte t.kernel.pages.toMachine x := by
  have hiso := ht.spaces.isolated
  rcases hx with hx | hx
  · have hin := h.spaces.isolated.tableByte hp hx
    have hin' : InTables (loc' p) x := by rwa [hu.loc_eq]
    obtain ⟨path, a, hl, hpage⟩ := hin'
    exact ⟨hu.tables x hin, ⟨a, hiso.tables_granted p hu.used path a hl, hpage⟩,
      Isolation.held_not_free hiso.owned (hiso.table_held hu.used ⟨path, a, hl, hpage⟩).1⟩
  · obtain ⟨f, hf, hpage⟩ := h.spaces.isolated.reach_frame hp hx
    rw [← hu.frames_eq] at hf
    obtain ⟨v, hv, hacc⟩ := hx
    have hsees := hu.memory.sees v hv
    have hacc' := (hu.memory.access v).trans hacc
    rw [sees, sees, hacc', show userAccess s.mem _ v = some x from hacc, Option.map_some,
      Option.map_some, Option.some.injEq] at hsees
    exact ⟨hsees, ⟨f, hiso.frames_granted p hu.used f hf, hpage⟩,
      Isolation.held_not_free hiso.owned (hiso.frame_held hu.used hf hpage)⟩

theorem continues_undisturbed (h : Invariant l drivers sizes s loc frames)
    (hx : (s.kernel.procs p).state = .exited) (hc : Continues l drivers sizes' s t) :
    Undisturbed l drivers p sizes' s t ∧ t.kernel.procs p = s.kernel.procs p := by
  have hused : Used s p := by
    rw [Used, hx]
    exact ProcState.noConfusion
  induction hc with
  | nil => exact ⟨.nil _, rfl⟩
  | tail hc hs ih =>
    obtain ⟨hu, hsame⟩ := ih h hx hused
    obtain ⟨loc₁, frames₁, h₁, -⟩ := undisturbed_kept h hused hu
    have hx₁ := (congrArg Process.state hsame).trans hx
    have hno : ¬ InUser _ p := fun hin => exited_not_current h₁.trap hx₁ hin.1
    exact ⟨hu.tail hs hno, (step_keeps_exited h₁ hx₁ hs).trans hsame⟩

end

section
variable {δ : Type} {bus : Bus δ} {l : Layout} {blk : BlkDevice} {sizes : List ℕ} {s t u : State}
  {p : Fin procsMax}

/-- Whatever happens between `create_process` and its first instruction, a process begins at
`USER_BASE` with its image, zeros up to the end of the last page, and no other memory. -/
theorem starts_with_image (hr : Reachable bus l blk sizes s) (hm : s.mode = .kmain)
    {image n : ℕ} {i : Fin procsMax} {τ : ProcTable} (hn : n ≤ maxImage)
    (himage : Boot.Embedded l image n)
    (hc : createProcess kallocPage l s.kernel.toProcTable image n = some (i, τ))
    {sizes' : List ℕ} (hu : Undisturbed l (driverBlocks blk) i sizes' (created s i τ) u)
    (hin : InUser u i) : Entered i (fun j => s.mem (image + j)) n u := by
  obtain ⟨loc, frames, h⟩ := reachable_invariant hr
  obtain ⟨loc', frames', h', -⟩ := h.create_step hm hn hc
  obtain ⟨hw, hused⟩ := created_waiting h hc
  obtain ⟨_, _, -, hkept⟩ := undisturbed_kept h' hused hu
  obtain ⟨hcur, pc, hmode⟩ := hin
  constructor
  · rcases undisturbed_waiting h' hused hw hu with (⟨hne, -⟩ | ⟨-, hret, -⟩) | ⟨-, hbase⟩
    · exact absurd hcur hne
    · rw [hret] at hmode
      cases hmode
    · exact hbase
  · intro v hv
    rw [hkept.memory.sees v hv, created_sees h hm hn himage hc v hv]

/-- `proc_exit` is final: the process never runs again, its slot is never taken, and its tables
and pages are never given back or written. -/
theorem exit_final (hr : Reachable bus l blk sizes s) (hx : (s.kernel.procs p).state = .exited)
    {sizes' : List ℕ} (hc : Continues l (driverBlocks blk) sizes' s t) : Gone p s t := by
  obtain ⟨loc, frames, h⟩ := reachable_invariant hr
  obtain ⟨hu, hslot⟩ := continues_undisturbed h hx hc
  have hused : Used s p := by
    rw [Used, hx]
    exact ProcState.noConfusion
  obtain ⟨loc', frames', h', hkept⟩ := undisturbed_kept h hused hu
  have hheld := fun x (hx : Holds s p x) => held_of_holds h hused h' hkept hx
  exact ⟨hslot, exited_not_current h'.trap ((congrArg Process.state hslot).trans hx),
    hkept.memory, fun x hx => (hheld x hx).1, fun x hx => (hheld x hx).2.1,
    fun x hx => (hheld x hx).2.2⟩

end

/-- The shell, one page of the kernel image. -/
theorem sample_shell_starts : ∃ s u : State,
    Entered 1 (fun j => s.mem (kernelBase + j)) 0x1000 u := by
  obtain ⟨blk, s, τ, v, hr, hm, -, hc, hyield, hv, hcur, hdispatch⟩ :=
    shell_dispatched sampleBus_identifies (by decide) Boot.sample_embedded (fun _ => 0)
      (fun _ => 0) []
  have hkmain : ¬ InUser (created s 1 τ) 1 := fun ⟨_, pc, hpc⟩ => by
    change s.mode = _ at hpc
    rw [hm] at hpc
    cases hpc
  have hret : ¬ InUser v 1 := fun ⟨_, pc, hpc⟩ => by
    rw [hv.ret] at hpc
    cases hpc
  have hy : Step sampleLayout (driverBlocks blk) _ (.kernel .yield) v :=
    .kernel _ .yield _ trivial hyield
  have hu := ((Undisturbed.nil _).tail hy hkmain).tail (.kernel _ .dispatch _ trivial hdispatch)
    hret
  exact ⟨s, _, starts_with_image hr hm (by decide) Boot.sample_embedded hc hu ⟨hcur, _, rfl⟩⟩

/-- The shell has exited and `kmain` goes on. -/
theorem sample_shell_gone : ∃ s t : State, (s.kernel.procs 1).state = .exited ∧
    t.mode = .kmain ∧ Gone 1 s t := by
  obtain ⟨blk, s, c, hr, hret, -, hc, hkmain, hx⟩ := sample_shell_exits
  obtain ⟨loc, frames, h⟩ := reachable_invariant hr
  obtain ⟨t, hs, hm⟩ : ∃ t, SystemCalls.Step sampleLayout s .resume t ∧ t.mode = .kmain :=
    ⟨_, TrapCoherence.ret_resumes h.trap hret hc, hkmain⟩
  exact ⟨s, t, hx, hm,
    exit_final hr hx ((Continues.nil s).tail (.kernel _ .resume _ trivial hs))⟩

end ProcessLife
