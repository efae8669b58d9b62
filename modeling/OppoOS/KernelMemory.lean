import OppoOS.Isolation
import OppoOS.TrapCoherence

/-!
# What the kernel's own steps leave alone

Traps, system calls and switches write kernel stacks and saved stack pointers only, so address
spaces and the allocator do not notice them; saved contexts do not notice the heap.
-/
namespace KernelMemory

open ByteMemory BuddyTiling BuddyAllocator AllocatorRefinement RiscV ContextSwitch
open Paging PageTables PageGrants AddressSpace Processes ProcessSpace SystemCalls SavedContexts
open TrapInvariant Function
open Scheduler (ResumePoint)

section
variable {l : Layout} {base base' : List Block} {t t' : ProcTable}
  {loc : Fin procsMax → List ℕ → Option ℕ} {frames : Fin procsMax → List ℕ}
  {size : Fin procsMax → ℕ}

theorem isolation_transfer (h : Isolation.Invariant l base t loc frames size)
    (ho : Owned (heapOf l) base' t'.pages) (hg : t'.pages.granted = t.pages.granted)
    (hu : ∀ i, (t'.procs i).state = .unused ↔ (t.procs i).state = .unused)
    (hp : ∀ i, (t'.procs i).pageTable = (t.procs i).pageTable)
    (hm : ∀ i, Isolation.Registered t i → ∀ x, InTables (loc i) x →
      t'.pages.mem x = t.pages.mem x) : Isolation.Invariant l base' t' loc frames size := by
  have hreg : ∀ i, Isolation.Registered t' i → Isolation.Registered t i := fun i hi =>
    fun hun => hi ((hu i).mpr hun)
  constructor
  · exact ho
  · intro i hi
    rw [hp i]
    apply (h.table i (hreg i hi)).frame
    intro p a hl x h1 h2
    exact hm i (hreg i hi) x ⟨p, a, hl, h1, h2⟩
  · intro i hi p a hl
    rw [hg]
    exact h.tables_granted i (hreg i hi) p a hl
  · intro i hi f hf
    rw [hg]
    exact h.frames_granted i (hreg i hi) f hf
  · exact fun i j hi hj => h.frames_tables i j (hreg i hi) (hreg j hj)
  · exact fun i j hi hj => h.frames_apart i j (hreg i hi) (hreg j hj)

theorem inTables_heap (h : Isolation.Invariant l base t loc frames size) {i : Fin procsMax}
    (hi : Isolation.Registered t i) {x : ℕ} (hx : InTables (loc i) x) : l.freeRam ≤ x :=
  (h.table_held hi hx).2

theorem granted_apart (ho : Owned (heapOf l) base t.pages) {a x : ℕ} (ha : a ∈ t.pages.granted)
    (hx : InPage a x) : cover base x = 0 := by
  obtain ⟨L, hi⟩ := ho
  have honce := hi.placed.once x
  have hpos : 0 < cover (pageBlocks t.pages.granted) x :=
    coverage_pos.mpr ⟨⟨a, 0⟩, List.mem_map.mpr ⟨a, ha, rfl⟩, covers_page.mpr hx⟩
  simp only [cover, coverage_append] at honce hpos ⊢
  omega

theorem tables_apart (h : Isolation.Invariant l base t loc frames size) {i : Fin procsMax}
    (hi : Isolation.Registered t i) {x : ℕ} (hx : InTables (loc i) x) : cover base x = 0 := by
  obtain ⟨p, a, hl, hx⟩ := hx
  exact granted_apart h.owned (h.tables_granted i hi p a hl) hx

theorem frames_apart_base (h : Isolation.Invariant l base t loc frames size) {i : Fin procsMax}
    (hi : Isolation.Registered t i) {f x : ℕ} (hf : f ∈ frames i) (hx : InPage f x) :
    cover base x = 0 := granted_apart h.owned (h.frames_granted i hi f hf) hx

theorem new_pages {i : Fin procsMax} {image n : ℕ} {loc : List ℕ → Option ℕ} {frames : List ℕ}
    (hs : NewSpace l base t t' i image n loc frames) {a : ℕ} (ha : a ∈ t'.pages.granted) (hold : a ∉ t.pages.granted) :
    (∃ p, loc p = some a) ∨ a ∈ frames := by
  obtain ⟨new, hnew⟩ := hs.grown
  have hself : ∀ b, InPage b b := fun b => ⟨le_rfl, Nat.lt_add_of_pos_right (by decide)⟩
  have hfresh : ∀ b ∈ t'.pages.granted, b ∉ t.pages.granted → b ∈ new := by
    intro b hb hno
    rw [← hnew] at hb
    exact (List.mem_append.mp hb).resolve_right hno
  have hsome : ∀ p ∈ (spacePaths l n).toList, ∃ b, loc p = some b := fun p hp =>
    Option.ne_none_iff_exists'.mp ((hs.space.paths p).mp (Finset.mem_toList.mp hp))
  have hgetD : ∀ {p b}, loc p = some b → (loc p).getD 0 = b := fun he => by rw [he]; rfl
  let tables := (spacePaths l n).toList.map fun p => (loc p).getD 0
  have htable : ∀ b ∈ tables, ∃ p, loc p = some b := by
    intro b hb
    obtain ⟨p, hp, hb⟩ := List.mem_map.mp hb
    obtain ⟨c, hc⟩ := hsome p hp
    exact ⟨p, by rw [← hb, hgetD hc, hc]⟩
  have hnodup : (tables ++ frames).Nodup := by
    refine List.nodup_append.mpr ⟨?_, hs.new_frames.nodup, ?_⟩
    · refine List.Nodup.map_on ?_ (Finset.nodup_toList _)
      intro p hp q hq he
      obtain ⟨b, hb⟩ := hsome p hp
      obtain ⟨c, hc⟩ := hsome q hq
      rw [hgetD hb, hgetD hc] at he
      by_contra hne
      have hapart := hs.space.table.apart hb hc hne
      simp only [sv39] at hapart
      omega
    · rintro b hb f hf rfl
      obtain ⟨p, hp⟩ := htable b hb
      exact hs.new_frames.apart b hf b (hself b) ⟨p, b, hp, hself b⟩
  have hsub : tables ++ frames ⊆ new := by
    intro b hb
    rcases List.mem_append.mp hb with hb | hb
    · obtain ⟨p, hp⟩ := htable b hb
      exact hfresh b (hs.space.tables_granted hp) fun hc =>
        hs.new_tables b ⟨p, b, hp, hself b⟩ (held_of_granted hc (hself b))
    · exact hfresh b (hs.new_frames.granted b hb) fun hc =>
        hs.new_frames.unheld b hb b (hself b) (held_of_granted hc (hself b))
  have hlen : new.length ≤ (tables ++ frames).length := by
    have hcount := hs.space.count
    rw [← hnew, List.length_append] at hcount
    rw [List.length_append, List.length_map, Finset.length_toList, hs.length]
    omega
  have hperm := (hnodup.subperm hsub).perm_of_length_le hlen
  exact (List.mem_append.mp (hperm.mem_iff.mpr (hfresh a ha hold))).imp_left (htable a)

/-- Processes are isolated, and every page that was granted is a table or a frame of one. -/
structure Spaces (l : Layout) (base : List Block) (t : ProcTable)
    (loc : Fin procsMax → List ℕ → Option ℕ) (frames : Fin procsMax → List ℕ)
    (size : Fin procsMax → ℕ) : Prop where
  isolated : Isolation.Invariant l base t loc frames size
  frames_length : ∀ i, Isolation.Registered t i →
    (frames i).length = (pageAddrs 0 (size i)).length
  owners : ∀ a ∈ t.pages.granted, ∃ i, Isolation.Registered t i ∧
    ((∃ p, loc i p = some a) ∨ a ∈ frames i)

theorem no_process_spaces (l : Layout) {base : List Block} {σ : Machine}
    (ho : Owned (heapOf l) base ⟨σ, []⟩) {procs : Fin procsMax → Process}
    (hun : ∀ i, (procs i).state = .unused) :
    Spaces l base ⟨⟨σ, []⟩, procs⟩ (fun _ _ => none) (fun _ => []) (fun _ => 0) := by
  have hno : ∀ i, ¬ Isolation.Registered ⟨⟨σ, []⟩, procs⟩ i := fun i hc => hc (hun i)
  refine ⟨⟨ho, ?_, ?_, ?_, ?_, ?_⟩, fun i hi => absurd hi (hno i), ?_⟩
  all_goals simp [hno]

theorem Spaces.transfer (h : Spaces l base t loc frames size)
    (ho : Owned (heapOf l) base' t'.pages) (hg : t'.pages.granted = t.pages.granted)
    (hu : ∀ i, (t'.procs i).state = .unused ↔ (t.procs i).state = .unused)
    (hp : ∀ i, (t'.procs i).pageTable = (t.procs i).pageTable)
    (hm : ∀ i, Isolation.Registered t i → ∀ x, InTables (loc i) x →
      t'.pages.mem x = t.pages.mem x) : Spaces l base' t' loc frames size := by
  refine ⟨isolation_transfer h.isolated ho hg hu hp hm, ?_, ?_⟩
  · exact fun i hi => h.frames_length i (mt (hu i).mpr hi)
  · intro a ha
    rw [hg] at ha
    obtain ⟨i, hi, hown⟩ := h.owners a ha
    exact ⟨i, mt (hu i).mp hi, hown⟩

theorem Spaces.create (h : Spaces l base t loc frames size) {i : Fin procsMax} {image n : ℕ}
    {newLoc : List ℕ → Option ℕ} {newFrames : List ℕ} (hi : (t.procs i).state = .unused)
    (hi' : (t'.procs i).state ≠ .unused) (hother : ∀ j, j ≠ i → t'.procs j = t.procs j)
    (hs : NewSpace l base t t' i image n newLoc newFrames) :
    Spaces l base t' (update loc i newLoc) (update frames i newFrames) (update size i n) := by
  refine ⟨Isolation.create_invariant h.isolated (fun hr => hr hi) hother hs, ?_, ?_⟩
  · intro j hj
    by_cases hji : j = i
    · rw [hji, update_self, update_self]
      exact hs.length
    · rw [update_of_ne hji, update_of_ne hji]
      apply h.frames_length j
      rwa [Isolation.Registered, hother j hji] at hj
  · intro a ha
    by_cases hold : a ∈ t.pages.granted
    · obtain ⟨j, hj, hown⟩ := h.owners a hold
      have hji : j ≠ i := by
        rintro rfl
        exact hj hi
      refine ⟨j, ?_, ?_⟩
      · rwa [Isolation.Registered, hother j hji]
      · rwa [update_of_ne hji, update_of_ne hji]
    · refine ⟨i, hi', ?_⟩
      rw [update_self, update_self]
      exact new_pages hs ha hold

end

section
variable {l : Layout} {s t : State} {e : Event}

theorem inStacks_low (l : Layout) {x : ℕ} (hx : InStacks l x) : x < l.freeRam := by
  have b := layout_bounds l 0
  have hsize : processSize = 8216 := rfl
  simp only [InStacks, procsMax, hsize] at hx
  omega

theorem landed_kept {i : Fin procsMax} {m m' : Mem} {regs : Reg → Word} {call : Option Call}
    {trap : Option Trap} {p : ResumePoint} (h : Landed l m i regs call trap p)
    (hm : ∀ x, Own l i x → m' x = m x) : Landed l m' i regs call trap p := by
  have hcases : ∀ c, call = some c → ReturnsTo l i c regs m → Suspended l m i c trap →
      ∃ c, call = some c ∧ ReturnsTo l i c regs m' ∧ Suspended l m' i c trap := by
    intro c hc hr hs
    refine ⟨c, hc, ⟨hr.sp, hr.saved, fun x hl hx => ?_⟩, hs.kept hm⟩
    have hge := hs.sp_ge
    rw [hm x (own_stack (by omega) hx)]
    exact hr.stack x hl hx
  cases p with
  | start => exact h
  | yieldReturn =>
    obtain ⟨c, hc, hr, hs⟩ := h
    exact hcases c hc hr hs
  | exitReturn =>
    obtain ⟨c, hc, hr, hs⟩ := h
    exact hcases c hc hr hs

theorem trap_of_pages (h : Invariant l s) (σ : Pages)
    (hm : ∀ x, InStacks l x → σ.mem x = s.mem x) :
    Invariant l { s with
      sched := { s.sched with kernel := { s.kernel with pages := σ } } } := by
  have hown : ∀ i x, Own l i x → σ.mem x = s.mem x := fun i x hx => hm x (own_inStacks l hx)
  constructor
  · exact ⟨h.sched.idle_slot, h.sched.idle_pid, h.sched.idle_runnable, h.sched.pid_slot,
      h.sched.current_runnable, h.sched.exit_exited, h.sched.no_return⟩
  · exact fun i hi hu => (h.parked i hi hu).kept (hown i)
  · exact h.unused
  · exact h.roots
  · have hrun := h.running
    unfold Running at hrun ⊢
    cases hmode : s.mode with
    | user pc =>
      rw [hmode] at hrun
      exact ⟨hrun.1, hrun.2.1, hrun.2.2.1, hrun.2.2.2.congr rfl rfl rfl rfl⟩
    | handler a done =>
      rw [hmode] at hrun
      have hb := codeTop_bounds l s.current
      refine ⟨hrun.1, hrun.2.1.congr rfl rfl rfl rfl, hrun.2.2.congr fun x hl hx => ?_⟩
      exact hown s.current x (own_stack (by omega) hx)
    | kmain =>
      rw [hmode] at hrun
      exact hrun
    | ret =>
      rw [hmode] at hrun
      exact ⟨hrun.1.congr rfl rfl rfl rfl, landed_kept hrun.2 (hown s.current)⟩
    | panicked => trivial

/-- Steps of the kernel besides `create_process` and the code whose writes are not modelled. -/
def IsKernel : Event → Prop
  | .user | .work | .create => False
  | .ecall | .syscall | .yield | .dispatch | .resume | .sysret | .input | .panic | .getc _ => True

structure Quiet (l : Layout) (s t : State) : Prop where
  mem : ∀ x, ¬ InStacks l x → t.mem x = s.mem x
  lists : t.kernel.pages.freeLists = s.kernel.pages.freeLists
  granted : t.kernel.pages.granted = s.kernel.pages.granted
  unused : ∀ i, (t.kernel.procs i).state = .unused ↔ (s.kernel.procs i).state = .unused
  pageTable : ∀ i, (t.kernel.procs i).pageTable = (s.kernel.procs i).pageTable

theorem quiet_withMem {m : Mem} (ht : t.sched = withMem s.sched m)
    (hm : ∀ x, ¬ InStacks l x → m x = s.mem x) : Quiet l s t := by
  obtain ⟨σ, regs, csrs, mode, calls, traps, input⟩ := t
  dsimp only at ht
  subst ht
  exact ⟨hm, rfl, rfl, fun _ => Iff.rfl, fun _ => rfl⟩

theorem quiet_of_sched (ht : t.sched = s.sched) : Quiet l s t :=
  quiet_withMem (m := s.mem) ht fun _ _ => rfl

theorem trapFrom_outside (hi : s.current ≠ 0) (hin : Installed l s) (pc : Word) {x : ℕ}
    (hx : ¬ InStacks l x) : (trapFrom s pc).mem x = s.mem x := by
  have b := layout_bounds l s.current
  have sb := stack_bounds l s.current
  have hz : (s.current : ℕ) ≠ 0 := fun h => hi (Fin.ext h)
  have htop : (update s.csrs .sepc pc .sscratch).toNat = l.stackTop s.current := by
    rw [update_of_ne (by decide), hin.sscratch, stackTopWord_toNat]
  have he := exec_trapEntry ⟨s.regs, update s.csrs .sepc pc, s.mem⟩ (by dsimp only; omega)
  dsimp only at he
  rw [htop] at he
  unfold trapFrom
  generalize Hart.exec _ trapEntry = h at he ⊢
  refine he.outside x ?_
  by_contra hc
  exact hx (own_inStacks l (own_stack (i := s.current) (by omega) (by omega)))

theorem switch_outside {k : Kernel} {caller : ResumePoint} {limit : ℕ} {mode : Mode}
    {r : Reg → Word} (h : Invariant l s) (hy : Yields l s k caller limit mode)
    (hn : nextProc k ≠ s.current) (hr : CallRegs l s.current (nextProc k) limit r) {x : ℕ}
    (hx : ¬ InStacks l x) : (switchTo l s k caller mode r).mem x = s.mem x := by
  have y := yields_yielding hy h
  have hlimit := y.limit
  have b := layout_bounds l s.current
  have sb := stack_bounds l s.current
  have hge := hr.sp_ge
  have hle := hr.sp_le
  have ha0 := hr.a0
  have hnext : (s.kernel.procs (nextProc k)).state ≠ .unused := by
    have hrun : (k.procs (nextProc k)).state = .runnable := y.sched.current_runnable
    apply mt (y.unused (nextProc k)).mpr
    rw [hrun]
    decide
  have hparked := h.parked _ hn hnext
  unfold switchTo
  dsimp only
  generalize update (update s.csrs .sscratch (stackTopWord l (nextProc k))) .satp
    (satpOf (k.procs (nextProc k)).pageTable) = csrs
  have hout := exec_switchSave ⟨r, csrs, s.mem⟩ (by dsimp only; omega) (by dsimp only; omega)
  have hown : ∀ y, ¬ Own l s.current y → (Hart.exec ⟨r, csrs, s.mem⟩ switchSave).mem y = s.mem y := by
    intro y hy
    have houtside := hout.outside
    dsimp only at houtside
    rw [ha0] at houtside
    simp only [Own] at hy
    exact houtside y (by omega) (by omega)
  change (Hart.exec ⟨r, csrs, s.mem⟩ switchContext).mem x = s.mem x
  rw [switchContext, exec_append]
  have hbelow := (hparked.kept fun y hy => hown y (own_apart l hn hy)).below
  have ha1 := hout.next
  generalize Hart.exec ⟨r, csrs, s.mem⟩ switchSave = u at hown hbelow ha1 ⊢
  dsimp only at ha1
  obtain ⟨-, -, -, hmem⟩ := exec_switchLoad u rfl (by rw [ha1, hr.a1]; exact hbelow)
  rw [hmem]
  exact hown x fun hc => hx (own_inStacks l hc)

/-- Kernel steps write the stacks only. -/
theorem quiet_of_step (h : Invariant l s) (hs : Step l s e t) (he : IsKernel e) :
    Quiet l s t := by
  cases hs with
  | user pc regs pc' m hm => exact he.elim
  | ecall pc hm =>
    obtain ⟨hi, -, -, hin⟩ := (running_user hm).mp h.running
    exact quiet_withMem (trapFrom_sched s pc) fun x hx => trapFrom_outside hi hin pc hx
  | fault pc hm =>
    obtain ⟨hi, -, -, hin⟩ := (running_user hm).mp h.running
    exact quiet_withMem (trapFrom_sched s pc) fun x hx => trapFrom_outside hi hin pc hx
  | work a done m hm hw => exact he.elim
  | workMain m hm hw => exact he.elim
  | syscall a hm hf => exact quiet_of_sched rfl
  | getc a c rest hm hf hin =>
    obtain ⟨-, -, hi, tr, -, hh⟩ := (running_handler hm).mp h.running
    have b := layout_bounds l s.current
    have sb := stack_bounds l s.current
    have hz : (s.current : ℕ) ≠ 0 := fun h => hi (Fin.ext h)
    have ha0 : slot .a0 = 10 := rfl
    refine quiet_withMem rfl fun x hx => ?_
    apply storeWord_outside
    rw [ha0, hh.frame]
    by_contra hc
    exact hx (own_inStacks l (own_stack (i := s.current) (by omega) (by omega)))
  | unknown a hm hf => exact quiet_of_sched rfl
  | keep k caller limit mode hy hn =>
    have y := yields_yielding hy h
    have hpages : (yield k).pages = s.kernel.pages := y.pages
    constructor
    · exact fun x _ => congrArg (fun σ => σ.mem x) hpages
    · exact congrArg (fun σ => σ.freeLists) hpages
    · exact congrArg (fun σ => σ.granted) hpages
    · exact y.unused
    · exact y.pageTable
  | switch k caller limit mode r hy hn hr =>
    have y := yields_yielding hy h
    have hpages : (yield k).pages = s.kernel.pages := y.pages
    have hout : ∀ x, ¬ InStacks l x → (switchTo l s k caller mode r).mem x = s.mem x :=
      fun x hx => switch_outside h hy hn hr hx
    constructor
    · exact hout
    · exact congrArg (fun σ => σ.freeLists) hpages
    · exact congrArg (fun σ => σ.granted) hpages
    · exact y.unused
    · exact y.pageTable
  | dispatch regs hm hra => exact quiet_of_sched rfl
  | resume i c hm hc hr => exact quiet_of_sched rfl
  | sysret a regs hm hsp hsaved =>
    obtain ⟨-, -, -, tr, -, hh⟩ := (running_handler hm).mp h.running
    exact quiet_of_sched (returnFrom_spec hh hsp).sched
  | create image imageSize i t hm ho hc hok => exact he.elim
  | input c => exact quiet_of_sched rfl

end

end KernelMemory
