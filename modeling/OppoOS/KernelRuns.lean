import OppoOS.Boot

/-!
# Runs of the whole kernel

Processes compute and store through the page table in `satp`, trap, wait, exit and are
switched; `kmain` creates them; the disk writes its blocks at any time. Compiled kernel code
writes below the heap, within the calling convention, and the blocks of the driver. That no
allocation fails is not assumed.
-/
namespace KernelRuns

open ByteMemory BuddyTiling AllocatorRefinement RiscV Paging PageTables PageGrants AddressSpace
open Processes ProcessSpace Mmu DeviceInit SystemCalls KernelMemory Function
open SavedContexts (own_inStacks layout_bounds)
open TrapCoherence (OwnContext user_ownContext)
open Boot (kmainInit Ready kmainInit_cases)
open Isolation (UserReach)
open BuddyAllocator (pageSize)

/-- The root table that `satp` designates. -/
def rootOf (satp : Word) : ℕ := satp.toNat % 2 ^ 44 * pageSize

abbrev Used (s : State) (i : Fin procsMax) : Prop := (s.kernel.procs i).state ≠ .unused

inductive Event where
  | compute | store | code | device | noSlot
  | create (imageSize : ℕ)
  | kernel (e : SystemCalls.Event)

def Event.sizes : Event → List ℕ
  | .create imageSize => [imageSize]
  | _ => []

def created (s : State) (i : Fin procsMax) (t : ProcTable) : State :=
  { s with
    sched :=
      { kernel := { s.kernel with toProcTable := t }
        resume := update s.sched.resume i .start
        control := s.sched.control } }

inductive Step (l : Layout) (drivers : List Block) : State → Event → State → Prop where
  | compute (s pc regs pc') : s.mode = .user pc →
      Step l drivers s .compute { s with regs := regs, mode := .user pc' }
  | store (s pc regs pc' v byte x) : s.mode = .user pc → v < 2 ^ 64 →
      userWrite s.mem (rootOf (s.csrs .satp)) v = some x →
      Step l drivers s .store
        { s with
          sched := withMem s.sched (store8 s.mem x byte)
          regs := regs
          mode := .user pc' }
  | code (s t) : SystemCalls.Step l s .work t →
      (∀ x, l.freeRam ≤ x → cover drivers x = 0 → t.mem x = s.mem x) →
      Step l drivers s .code t
  | device (s m) : Frame drivers s.mem m →
      Step l drivers s .device { s with sched := withMem s.sched m }
  | create (s image imageSize i t) : s.mode = .kmain → imageSize ≤ maxImage →
      createProcess kallocPage l s.kernel.toProcTable image imageSize = some (i, t) →
      Step l drivers s (.create imageSize) (created s i t)
  | noSlot (s image imageSize) : s.mode = .kmain → imageSize ≤ maxImage →
      createProcess kallocPage l s.kernel.toProcTable image imageSize = none →
      Step l drivers s .noSlot { s with mode := .panicked }
  | kernel (s e t) : IsKernel e → SystemCalls.Step l s e t → Step l drivers s (.kernel e) t

inductive Booted {δ : Type} (bus : Bus δ) (l : Layout) (blk : BlkDevice) : State → Prop where
  | mk (m d k d' regs csrs input) : kmainInit bus l m d = some (k, blk, d') →
      Booted bus l blk
        ⟨Scheduler.start k, regs, csrs, .kmain, fun _ => none, fun _ => none, input⟩

/-- Runs from power-on, with the sizes of the images created since, the newest first. -/
inductive Reachable {δ : Type} (bus : Bus δ) (l : Layout) (blk : BlkDevice) :
    List ℕ → State → Prop where
  | boot {s} : Booted bus l blk s → Reachable bus l blk [] s
  | step {sizes s e t} : Reachable bus l blk sizes s → Step l (driverBlocks blk) s e t →
      Reachable bus l blk (e.sizes ++ sizes) t

def pagesTaken (l : Layout) (sizes : List ℕ) : ℕ :=
  pagesNeeded l 0 + (sizes.map (pagesNeeded l)).sum

/-- The size of the image in a slot: the slots are taken in order, the first one by the idle
process. -/
def imageSize (sizes : List ℕ) (i : Fin procsMax) : ℕ := (0 :: sizes.reverse).getD i 0

theorem imageSize_cons (n : ℕ) {sizes : List ℕ} {i : Fin procsMax} (hi : (i : ℕ) = sizes.length + 1) :
    imageSize (n :: sizes) = update (imageSize sizes) i n := by
  funext j
  have hlen : (0 :: sizes.reverse).length = sizes.length + 1 := by simp
  have happ : (0 :: (n :: sizes).reverse) = (0 :: sizes.reverse) ++ [n] := by simp
  rw [imageSize, happ]
  by_cases hj : j = i
  · rw [hj, update_self, List.getD_append_right _ _ _ _ (by omega), hlen, hi, Nat.sub_self]
    rfl
  · rw [update_of_ne hj, imageSize]
    rcases lt_or_ge (j : ℕ) (sizes.length + 1) with hlt | hge
    · exact List.getD_append _ _ _ _ (by omega)
    · have hne : (j : ℕ) ≠ i := Fin.val_ne_of_ne hj
      rw [List.getD_eq_default, List.getD_eq_default]
      · omega
      · rw [List.length_append, hlen, List.length_singleton]
        omega

theorem imageSize_le {sizes : List ℕ} {b : ℕ} (h : ∀ n ∈ sizes, n ≤ b) (i : Fin procsMax) :
    imageSize sizes i ≤ b := by
  rw [imageSize, List.getD_eq_getElem?_getD]
  cases he : (0 :: sizes.reverse)[(i : ℕ)]? with
  | none => exact Nat.zero_le _
  | some n =>
    rcases List.mem_cons.mp (List.mem_of_getElem? he) with rfl | hn
    · exact Nat.zero_le _
    · exact h n (List.mem_reverse.mp hn)

/-- Contexts and address spaces are in order, and every page of the heap is accounted for. -/
structure Invariant (l : Layout) (drivers : List Block) (sizes : List ℕ) (s : State)
    (loc : Fin procsMax → List ℕ → Option ℕ) (frames : Fin procsMax → List ℕ) : Prop where
  trap : TrapInvariant.Invariant l s
  spaces : Spaces l drivers s.kernel.toProcTable loc frames (imageSize sizes)
  slots : ProcessSlots.SlotsUsed sizes.length s.sched
  accepted : ∀ n ∈ sizes, n ≤ maxImage
  taken : s.kernel.pages.granted.length = pagesTaken l sizes
  left : freePages (heapOf l) drivers [] = 32765

/-- Registered processes keep their tables and, unless they run in user mode, their frames
with what is in them. -/
structure Kept (s t : State) (loc loc' : Fin procsMax → List ℕ → Option ℕ)
    (frames frames' : Fin procsMax → List ℕ) : Prop where
  same : ∀ i, Used s i → Used t i ∧ loc' i = loc i ∧ frames' i = frames i ∧
    (t.kernel.procs i).pageTable = (s.kernel.procs i).pageTable
  tables : ∀ i, Used s i → ∀ x, InTables (loc i) x → t.mem x = s.mem x
  frames : ∀ i, Used s i → ¬ TrapCoherence.InUser s i → ∀ f ∈ frames i, ∀ x, InPage f x →
    t.mem x = s.mem x

section
variable {l : Layout} {drivers : List Block} {sizes : List ℕ} {s t : State} {e : Event}
  {loc : Fin procsMax → List ℕ → Option ℕ} {frames : Fin procsMax → List ℕ}

theorem Invariant.table_bytes (h : Invariant l drivers sizes s loc frames) {i : Fin procsMax}
    (hi : Used s i) {x : ℕ} (hx : InTables (loc i) x) : l.freeRam ≤ x ∧ cover drivers x = 0 :=
  ⟨inTables_heap h.spaces.isolated hi hx, tables_apart h.spaces.isolated hi hx⟩

theorem Invariant.frame_bytes (h : Invariant l drivers sizes s loc frames) {i : Fin procsMax}
    (hi : Used s i) {f x : ℕ} (hf : f ∈ frames i) (hx : InPage f x) :
    l.freeRam ≤ x ∧ cover drivers x = 0 := by
  refine ⟨?_, frames_apart_base h.spaces.isolated hi hf hx⟩
  exact (h.spaces.isolated.owned.granted_inside (h.spaces.isolated.frames_granted i hi f hf)).2.1.trans hx.1

theorem Invariant.stacks_apart (h : Invariant l drivers sizes s loc frames) {x : ℕ}
    (hx : InStacks l x) : cover drivers x = 0 := by
  have hlow := inStacks_low l hx
  obtain ⟨L, hi⟩ := h.spaces.isolated.owned
  apply coverage_eq_zero.mpr
  intro b hb hcov
  have hin := hi.tiles.inside (List.mem_append_left _ (List.mem_append_right _ hb))
  exact absurd (hin.1.trans hcov.1) (not_le.mpr hlow)

theorem Invariant.quiet (h : Invariant l drivers sizes s loc frames)
    (ht : TrapInvariant.Invariant l t)
    (hlists : t.kernel.pages.freeLists = s.kernel.pages.freeLists)
    (hgranted : t.kernel.pages.granted = s.kernel.pages.granted)
    (hunused : ∀ i, (t.kernel.procs i).state = .unused ↔ (s.kernel.procs i).state = .unused)
    (htable : ∀ i, (t.kernel.procs i).pageTable = (s.kernel.procs i).pageTable)
    (hmem : ∀ x, l.freeRam ≤ x → cover drivers x = 0 → t.mem x = s.mem x) :
    Invariant l drivers sizes t loc frames ∧ Kept s t loc loc frames frames := by
  have htables : ∀ i, Used s i → ∀ x, InTables (loc i) x → t.mem x = s.mem x := by
    intro i hi x hx
    obtain ⟨h1, h2⟩ := h.table_bytes hi hx
    exact hmem x h1 h2
  have hused : ∀ i, Used t i ↔ Used s i := fun i => not_congr (hunused i)
  -- what changes is below the heap or in a block of a driver
  have howned : Owned (heapOf l) drivers t.kernel.pages := by
    have hlow := h.spaces.isolated.owned.low_write
      (m := fun x => if x < l.freeRam then t.mem x else s.mem x)
      (fun x hx => if_neg (not_lt.mpr hx))
    have hblocks := BlockGrants.owned_write hlow (m := t.mem) fun x hx => by
      dsimp only
      by_cases hx' : x < l.freeRam
      · rw [if_pos hx']
      · rw [if_neg hx']
        exact hmem x (not_lt.mp hx') hx
    obtain ⟨L, hi⟩ := hblocks
    refine ⟨L, ?_⟩
    rw [hgranted]
    dsimp only at hi
    rw [← hlists] at hi
    exact hi
  refine ⟨⟨ht, ?_, ?_, h.accepted, ?_, h.left⟩, ⟨?_, htables, ?_⟩⟩
  · exact h.spaces.transfer howned hgranted hunused htable htables
  · exact fun i => (hused i).trans (h.slots i)
  · rw [hgranted]
    exact h.taken
  · exact fun i hi => ⟨(hused i).mpr hi, rfl, rfl, htable i⟩
  · intro i hi _ f hf x hx
    obtain ⟨h1, h2⟩ := h.frame_bytes hi hf hx
    exact hmem x h1 h2

theorem Invariant.quiet_step (h : Invariant l drivers sizes s loc frames)
    (ht : TrapInvariant.Invariant l t) (hq : Quiet l s t) :
    Invariant l drivers sizes t loc frames ∧ Kept s t loc loc frames frames :=
  h.quiet ht hq.lists hq.granted hq.unused hq.pageTable fun x hx _ =>
    hq.mem x fun hin => absurd (inStacks_low l hin) (not_lt.mpr hx)

theorem Invariant.rootOf_satp (h : Invariant l drivers sizes s loc frames) {pc : Word}
    (hm : s.mode = .user pc) : rootOf (s.csrs .satp) = (s.kernel.procs s.current).pageTable :=
  (user_ownContext h.trap hm).satp.ppn

theorem Invariant.current_used (h : Invariant l drivers sizes s loc frames) :
    Used s s.current := fun hu => h.trap.current_used hu rfl

theorem Invariant.compute_step (h : Invariant l drivers sizes s loc frames) {pc : Word}
    (hm : s.mode = .user pc) (regs : Reg → Word) (pc' : Word) :
    Invariant l drivers sizes { s with regs := regs, mode := .user pc' } loc frames ∧
      Kept s { s with regs := regs, mode := .user pc' } loc loc frames frames := by
  have hs : SystemCalls.Step l s .user _ := .user s pc regs pc' s.mem hm fun _ _ => rfl
  exact h.quiet (TrapInvariant.step_invariant h.trap hs) rfl rfl (fun _ => Iff.rfl)
    (fun _ => rfl) fun _ _ _ => rfl

/-- A store of the current process stays in its frames. -/
theorem Invariant.store_step (h : Invariant l drivers sizes s loc frames) {pc : Word}
    (hm : s.mode = .user pc) {v x : ℕ} (hv : v < 2 ^ 64)
    (hw : userWrite s.mem (rootOf (s.csrs .satp)) v = some x) (byte : UInt8)
    (regs : Reg → Word) (pc' : Word) :
    Invariant l drivers sizes
        { s with
          sched := withMem s.sched (store8 s.mem x byte)
          regs := regs
          mode := .user pc' } loc frames ∧
      Kept s
        { s with
          sched := withMem s.sched (store8 s.mem x byte)
          regs := regs
          mode := .user pc' } loc loc frames frames := by
  rw [h.rootOf_satp hm] at hw
  have hused := h.current_used
  have hreach : UserReach s.kernel.toProcTable s.current x := ⟨v, hv, userAccess_of_userWrite hw⟩
  obtain ⟨f, hf, hp⟩ := h.spaces.isolated.reach_frame hused hreach
  have hsame : ∀ y, y ≠ x → store8 s.mem x byte y = s.mem y := fun y hy => if_neg hy
  have hs : SystemCalls.Step l s .user _ := .user s pc regs pc' (store8 s.mem x byte) hm (by
    intro y hy
    apply hsame
    rintro rfl
    exact absurd (inStacks_low l hy) (not_lt.mpr (h.frame_bytes hused hf hp).1))
  refine ⟨⟨TrapInvariant.step_invariant h.trap hs, ?_, h.slots, h.accepted, h.taken,
    h.left⟩, ?_, ?_, ?_⟩
  · exact ⟨Isolation.store_invariant h.spaces.isolated hused hreach byte, h.spaces.frames_length,
      h.spaces.owners⟩
  · exact fun i hi => ⟨hi, rfl, rfl, rfl⟩
  · intro i hi y hy
    apply hsame
    rintro rfl
    exact h.spaces.isolated.frames_tables s.current i hused hi f hf y hp hy
  · intro i hi hno g hg y hy
    apply hsame
    rintro rfl
    have hne : s.current ≠ i := fun he => hno ⟨he, pc, hm⟩
    exact h.spaces.isolated.frames_apart s.current i hused hi hne f hf g hg y hp hy

theorem Invariant.device_step (h : Invariant l drivers sizes s loc frames) {m : Mem}
    (hm : Frame drivers s.mem m) :
    Invariant l drivers sizes { s with sched := withMem s.sched m } loc frames ∧
      Kept s { s with sched := withMem s.sched m } loc loc frames frames := by
  have ht := trap_of_pages h.trap { s.kernel.pages with mem := m } fun x hx =>
    hm x (h.stacks_apart hx)
  exact h.quiet ht rfl rfl (fun _ => Iff.rfl) (fun _ => rfl) fun x _ hx => hm x hx

theorem Invariant.code_step (h : Invariant l drivers sizes s loc frames)
    (hs : SystemCalls.Step l s .work t)
    (hm : ∀ x, l.freeRam ≤ x → cover drivers x = 0 → t.mem x = s.mem x) :
    Invariant l drivers sizes t loc frames ∧ Kept s t loc loc frames frames := by
  have ht := TrapInvariant.step_invariant h.trap hs
  cases hs with
  | work a done m hmode hw => exact h.quiet ht rfl rfl (fun _ => Iff.rfl) (fun _ => rfl) hm
  | workMain m hmode hw => exact h.quiet ht rfl rfl (fun _ => Iff.rfl) (fun _ => rfl) hm

/-- Seven processes with images of eight megabytes leave enough for an eighth. -/
theorem Invariant.room (h : Invariant l drivers sizes s loc frames) {i : Fin procsMax}
    (hi : (s.kernel.procs i).state = .unused) {n : ℕ} (hn : n ≤ maxImage) :
    pagesNeeded l n ≤ freePages (heapOf l) drivers s.kernel.pages.granted := by
  have hlen : sizes.length < i := by
    by_contra hc
    exact (h.slots i).mpr (not_lt.mp hc) hi
  have hlt := i.isLt
  have hsum : (sizes.map (pagesNeeded l)).sum ≤ _ := List.sum_le_card_nsmul _ 3588 fun p hp => by
    obtain ⟨n, hn, rfl⟩ := List.mem_map.mp hp
    exact pagesNeeded_le l (h.accepted n hn)
  have hadd := h.spaces.isolated.owned.freePages_add
  have htaken := h.taken
  have hleft := h.left
  have hneed := pagesNeeded_le l hn
  have hidle := pagesNeeded_le l (Nat.zero_le maxImage)
  rw [List.length_map, Nat.nsmul_eq_mul] at hsum
  simp only [pagesTaken, procsMax] at htaken hlt
  omega

theorem Invariant.create_served (h : Invariant l drivers sizes s loc frames)
    {image n : ℕ} {i : Fin procsMax} {t : ProcTable} (hn : n ≤ maxImage)
    (hc : createProcess kallocPage l s.kernel.toProcTable image n = some (i, t)) :
    0 ∉ t.pages.granted := by
  have hk := kallocPage_allocator (heapOf l) drivers
  obtain ⟨hfree, -, -⟩ := createProcess_cases hc
  have hroom := h.room (findUnused_spec hfree).1 hn
  exact (createProcess_served_iff hk h.spaces.isolated.owned hc).mpr hroom

theorem Invariant.create_none_iff (h : Invariant l drivers sizes s loc frames) (image : ℕ)
    {n : ℕ} (hn : n ≤ maxImage) :
    createProcess kallocPage l s.kernel.toProcTable image n = none ↔
      procsMax - 1 ≤ sizes.length := by
  have hk := kallocPage_allocator (heapOf l) drivers
  rw [← h.slots.panic_iff]
  constructor
  · intro hnone
    by_contra hslot
    obtain ⟨i, hi⟩ := Option.ne_none_iff_exists'.mp hslot
    obtain ⟨t, hc, -⟩ := createProcess_served (t := s.kernel.toProcTable) hk
      h.spaces.isolated.owned image hi (h.room (findUnused_spec hi).1 hn)
    rw [hnone] at hc
    cases hc
  · intro hpanic
    exact Option.bind_eq_none_iff.mpr fun i hi => absurd (hi.symm.trans hpanic) (by simp)

theorem Invariant.create_step (h : Invariant l drivers sizes s loc frames)
    (hm : s.mode = .kmain) {image n : ℕ} {i : Fin procsMax} {t : ProcTable} (hn : n ≤ maxImage)
    (hc : createProcess kallocPage l s.kernel.toProcTable image n = some (i, t)) :
    ∃ loc' frames', Invariant l drivers (n :: sizes) (created s i t) loc' frames' ∧
      Kept s (created s i t) loc loc' frames frames' := by
  have hk := kallocPage_allocator (heapOf l) drivers
  have hok := h.create_served hn hc
  obtain ⟨hfree, -, hp⟩ := createProcess_cases hc
  have hun : (s.kernel.procs i).state = .unused := (findUnused_spec hfree).1
  obtain ⟨newLoc, newFrames, hs⟩ := createProcess_space hk h.spaces.isolated.owned hc hok
  have hother : ∀ j, j ≠ i → t.procs j = s.kernel.procs j := fun j hj => by
    rw [hp, update_of_ne hj]
  have hnew : (t.procs i).state ≠ .unused := by
    rw [hp, update_self]
    exact ProcState.noConfusion
  have hne : ∀ {j}, Used s j → j ≠ i := by
    rintro j hj rfl
    exact hj hun
  have hused : ∀ {j}, Used s j → Used (created s i t) j := by
    intro j hj
    change (t.procs j).state ≠ .unused
    rwa [hother j (hne hj)]
  have hkept : ∀ x, Held (heapOf l) drivers s.kernel.pages.granted x → l.freeRam ≤ x →
      t.pages.mem x = s.mem x := by
    intro x hx hheap
    rw [hs.kept x hx]
    apply framed_outside
    intro hslot
    exact absurd (hslot.2.trans_le (stackTop_le l i)) (not_lt.mpr hheap)
  have hslot := h.slots.find hfree
  refine ⟨update loc i newLoc, update frames i newFrames, ⟨?_, ?_, ?_, ?_, ?_, h.left⟩, ?_, ?_, ?_⟩
  · exact TrapInvariant.create_step h.trap hm h.spaces.isolated.owned hc hok
  · rw [imageSize_cons n hslot]
    exact h.spaces.create hun hnew hother hs
  · exact h.slots.update hslot ProcState.noConfusion hp
  · exact List.forall_mem_cons.mpr ⟨hn, h.accepted⟩
  · have hcount := hs.space.count
    have htaken := h.taken
    change t.pages.granted.length = _
    simp only [pagesTaken, List.map_cons, List.sum_cons] at htaken ⊢
    have hneed : pagesNeeded l n = (spacePaths l n).card + (pageAddrs 0 n).length := rfl
    omega
  · intro j hj
    have hji := hne hj
    refine ⟨hused hj, update_of_ne hji _ _, update_of_ne hji _ _, ?_⟩
    change (t.procs j).pageTable = _
    rw [hother j hji]
  · intro j hj x hx
    obtain ⟨hheld, hheap⟩ := h.spaces.isolated.table_held hj hx
    exact hkept x hheld hheap
  · intro j hj _ f hf x hx
    exact hkept x (h.spaces.isolated.frame_held hj hf hx) (h.frame_bytes hj hf hx).1

theorem step_invariant {e : Event} (h : Invariant l drivers sizes s loc frames)
    (hs : Step l drivers s e t) : ∃ loc' frames',
      Invariant l drivers (e.sizes ++ sizes) t loc' frames' ∧
        Kept s t loc loc' frames frames' := by
  cases hs with
  | compute pc regs pc' hm => exact ⟨_, _, h.compute_step hm regs pc'⟩
  | store pc regs pc' v byte x hm hv hw => exact ⟨_, _, h.store_step hm hv hw byte regs pc'⟩
  | code t hs hm => exact ⟨_, _, h.code_step hs hm⟩
  | device m hm => exact ⟨_, _, h.device_step hm⟩
  | create image n i t hm hn hc => exact h.create_step hm hn hc
  | noSlot image n hm hn hc =>
    have ht : TrapInvariant.Invariant l { s with mode := .panicked } :=
      h.trap.of_same rfl (fun _ _ => rfl) (fun _ _ => rfl) trivial
    exact ⟨_, _, h.quiet_step ht (quiet_of_sched rfl)⟩
  | kernel e t he hs =>
    exact ⟨_, _, h.quiet_step (TrapInvariant.step_invariant h.trap hs)
      (quiet_of_step h.trap hs he)⟩

end

section
variable {δ : Type} {bus : Bus δ} {l : Layout} {blk : BlkDevice} {sizes : List ℕ} {s : State}

theorem boot_invariant (hb : Booted bus l blk s) : ∃ loc frames,
    Invariant l (driverBlocks blk) [] s loc frames := by
  cases hb with
  | mk m d k d' regs csrs input hk =>
    rcases kmainInit_cases bus l m d with ⟨-, k', blk', d'', hk', hr⟩ | ⟨-, hnone⟩
    · obtain ⟨rfl, rfl, rfl⟩ : k' = k ∧ blk' = blk ∧ d'' = d' := by
        rw [hk] at hk'
        cases hk'
        exact ⟨rfl, rfl, rfl⟩
      obtain ⟨loc, frames, hsp⟩ := hr.spaces
      have hidle : ∀ {i}, (k'.procs i).state ≠ .unused → i = k'.currentProc := by
        intro i hi
        rw [hr.current]
        exact (hr.alone i).mp hi
      have hzero : imageSize [] = fun _ => 0 := by
        funext i
        exact Nat.le_zero.mp (imageSize_le (fun _ hn => absurd hn List.not_mem_nil) i)
      rw [← hzero] at hsp
      refine ⟨loc, frames, ⟨hr.scheduled, ?_, fun _ _ => ⟨rfl, rfl⟩, ?_, ?_⟩, hsp, hr.slots, ?_, ?_,
        hr.free⟩
      · exact fun i hne hi => absurd (hidle hi) hne
      · intro i hi
        obtain rfl := (hr.alone i).mp hi
        exact hr.root
      · exact ⟨rfl, hr.current, rfl⟩
      · exact fun _ hn => absurd hn List.not_mem_nil
      · rw [pagesTaken, List.map_nil, List.sum_nil, Nat.add_zero]
        exact hr.pages
    · rw [hk] at hnone
      cases hnone

theorem reachable_invariant (hr : Reachable bus l blk sizes s) : ∃ loc frames,
    Invariant l (driverBlocks blk) sizes s loc frames := by
  induction hr with
  | boot hb => exact boot_invariant hb
  | step _ hs ih =>
    obtain ⟨loc, frames, h⟩ := ih
    obtain ⟨loc', frames', h', -⟩ := step_invariant h hs
    exact ⟨loc', frames', h'⟩

end

end KernelRuns
