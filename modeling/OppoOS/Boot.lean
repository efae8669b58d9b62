import OppoOS.DeviceInit
import OppoOS.KernelMemory
import OppoOS.ProcessSlots
import OppoOS.SpaceLayout

/-!
# From reset to the first yield

`boot/entry.s` clears the BSS section, `kernel/kernel.c` initialises memory, the idle process
and the disk, and creates the shell.
-/
namespace Boot

open ByteMemory BuddyTiling BuddyAllocator AllocatorRefinement Paging PageTables PageGrants
open AddressSpace Processes ProcessSpace SpaceLayout DeviceInit KernelMemory Function
open AllocatorRuns (boot)

/-- `sd zero, (t5)`, `addi t5, t5, 8`, `bltu t5, t6, bss_clear`: `none` when the fuel runs
out before the loop ends. -/
def bssClear (bssEnd : ℕ) : ℕ → Mem → ℕ → Option Mem
  | 0, _, _ => none
  | fuel + 1, m, t5 =>
    let m := store64 m t5 0
    let t5 := (t5 + 8) % 2 ^ 64
    if t5 < bssEnd then bssClear bssEnd fuel m t5 else some m

def bssWords (bssStart bssEnd : ℕ) : ℕ := max 1 ((bssEnd - bssStart + 7) / 8)

theorem store64_zero (m : Mem) (a x : ℕ) :
    store64 m a 0 x = if a ≤ x ∧ x < a + 8 then 0 else m x := by
  unfold store64
  split
  · rw [Nat.zero_div]
    rfl
  · rfl

/-- The loop ends, and has cleared whole words from the start to the end of the section. -/
theorem bssClear_run {bssEnd : ℕ} (hend : bssEnd + 8 ≤ 2 ^ 64) (n t5 : ℕ) (m : Mem)
    (hn : bssWords t5 bssEnd = n + 1) (ht : t5 < 2 ^ 64 - 8) :
    ∃ m', bssClear bssEnd (n + 1) m t5 = some m' ∧
      ∀ x, m' x = if t5 ≤ x ∧ x < t5 + 8 * (n + 1) then 0 else m x := by
  have hnext : (t5 + 8) % 2 ^ 64 = t5 + 8 := Nat.mod_eq_of_lt (by omega)
  unfold bssWords at hn
  induction n generalizing t5 m with
  | zero =>
    rw [bssClear, hnext, if_neg (by omega)]
    exact ⟨_, rfl, store64_zero m t5⟩
  | succ n ih =>
    obtain ⟨m', hm', hx'⟩ := ih (t5 + 8) (store64 m t5 0) (by omega) (by omega)
      (Nat.mod_eq_of_lt (by omega))
    rw [bssClear, hnext, if_pos (by omega)]
    refine ⟨m', hm', fun x => ?_⟩
    rw [hx' x, store64_zero]
    by_cases hx : t5 ≤ x ∧ x < t5 + 8 * (n + 1 + 1)
    · rw [if_pos hx, ite_eq_left_iff]
      intro hlater
      exact if_pos (by omega)
    · rw [if_neg hx, if_neg (by omega), if_neg (by omega)]

/-- `procs[i].state`, where 0 is `PROC_UNUSED`. -/
def stateAt (l : Layout) (m : Mem) (i : Fin procsMax) : ℕ := load32 m (l.proc i + 4)

def freeListAt (freeLists : ℕ) (m : Mem) (k : ℕ) : ℕ := load64 m (freeLists + 8 * k)

/-- Whatever RAM holds at power-on, `kmain` finds every slot unused and every list empty, and
the loop has gone less than a word beyond the section. -/
theorem bss_cleared (bssStart bssEnd : ℕ) (hord : bssStart < bssEnd) (hend : bssEnd + 16 ≤ 2 ^ 64)
    (m : Mem) : ∃ m', bssClear bssEnd (bssWords bssStart bssEnd) m bssStart = some m' ∧
      (∀ x, x < bssStart ∨ bssEnd + 7 ≤ x → m' x = m x) ∧
      (∀ l : Layout, bssStart ≤ l.procs → l.procs + procsMax * processSize ≤ bssEnd →
        ∀ i, stateAt l m' i = 0) ∧
      ∀ freeLists, bssStart ≤ freeLists → freeLists + 8 * (maxOrder + 1) ≤ bssEnd →
        ∀ k, k ≤ maxOrder → freeListAt freeLists m' k = 0 := by
  obtain ⟨n, hn⟩ : ∃ n, bssWords bssStart bssEnd = n + 1 := by
    refine ⟨bssWords bssStart bssEnd - 1, ?_⟩
    unfold bssWords
    omega
  have hwords := hn
  unfold bssWords at hwords
  obtain ⟨m', hrun, hx⟩ := bssClear_run (by omega) n bssStart m hn (by omega)
  have hzero : ∀ x, bssStart ≤ x → x < bssEnd → m' x = 0 := by
    intro x hl hr
    rw [hx x, if_pos (by omega)]
  rw [hn]
  refine ⟨m', hrun, ?_, ?_, ?_⟩
  · intro x hout
    rw [hx x, if_neg (by omega)]
  · intro l hl hr i
    have b := SavedContexts.layout_bounds l i
    have hproc : l.proc i = l.procs + i * 8216 := rfl
    have hsize : processSize = 8216 := rfl
    simp only [procsMax, hsize] at hr
    exact loadLE_zero m' _ 4 fun x h1 h2 => hzero x (by omega) (by omega)
  · intro freeLists hl hr k hk
    exact load64_zero m' _ fun x h1 h2 => hzero x (by omega) (by omega)

theorem sample_bss_cleared : ∃ m',
    bssClear 0x802130C0 (bssWords 0x80201000 0x802130C0) (fun _ => 0xFF) 0x80201000 = some m' ∧
      ∀ i, stateAt sampleLayout m' i = 0 := by
  obtain ⟨m', hrun, -, hstates, -⟩ :=
    bss_cleared 0x80201000 0x802130C0 (by decide) (by decide) fun _ => 0xFF
  exact ⟨m', hrun, hstates sampleLayout (by decide) (by decide)⟩

section
variable {δ : Type} (bus : Bus δ)

/-- `init_memory`, `init_proc` and `virtio_blk_init`, from memory `m` in which the BSS section
is clear: no list has a block and no slot is in use. A panic is `none`. -/
def kmainInit (l : Layout) (m : Mem) (d : δ) : Option (Kernel × BlkDevice × δ) := do
  let k ← initProc kallocPage l ⟨⟨(boot (heapOf l) m).machine, []⟩, noProcs⟩
  match virtioBlkInit bus ⟨k.pages.toMachine, d, []⟩ with
  | (.ok blk, w) => some ({ k with pages := ⟨w.machine, k.pages.granted⟩ }, blk, w.device)
  | (.error _, _) => none

/-- `kmain` up to its call of `yield`. -/
def kmain (l : Layout) (shell shellSize : ℕ) (m : Mem) (d : δ) :
    Option (Kernel × BlkDevice × δ) := do
  let (k, blk, d) ← kmainInit bus l m d
  let (_, t) ← createProcess kallocPage l k.toProcTable shell shellSize
  some ({ k with toProcTable := t }, blk, d)

end

/-- What `kmain` has set up when it begins to create processes. -/
structure Ready (l : Layout) (m : Mem) (k : Kernel) (blk : BlkDevice) : Prop where
  spaces : ∃ loc frames, Spaces l (driverBlocks blk) k.toProcTable loc frames fun _ => 0
  scheduled : Scheduler.Invariant (Scheduler.start k)
  alone : ∀ i, (k.procs i).state ≠ .unused ↔ i = 0
  root : pageSize ∣ (k.procs 0).pageTable ∧ (k.procs 0).pageTable < 2 ^ 32
  pages : k.pages.granted.length = pagesNeeded l 0
  free : freePages (heapOf l) (driverBlocks blk) [] = 32765
  low : ∀ x, x < l.freeRam → ¬ InSlot l 0 x → k.pages.mem x = m x

structure IdleReady (l : Layout) (m : Mem) (k : Kernel) : Prop where
  spaces : ∃ loc frames, Spaces l [] k.toProcTable loc frames fun _ => 0
  scheduled : Scheduler.Invariant (Scheduler.start k)
  alone : ∀ i, (k.procs i).state ≠ .unused ↔ i = 0
  root : pageSize ∣ (k.procs 0).pageTable ∧ (k.procs 0).pageTable < 2 ^ 32
  pages : k.pages.granted.length = pagesNeeded l 0
  low : ∀ x, x < l.freeRam → ¬ InSlot l 0 x → k.pages.mem x = m x

theorem boot_low (h : AllocatorRuns.Heap) (m : Mem) {x : ℕ} (hx : x < h.heapStart) :
    (boot h m).machine.mem x = m x := by
  have hout := (initMemory_refines ⟨m, fun _ => 0⟩ (fun _ => rfl) h.start_pos h.ordered
    h.end_lt).2 x fun hc => absurd hc.1 (not_le.mpr hx)
  rw [boot, hout]

theorem newSpace_low {l : Layout} {base : List Block} {t t' : ProcTable} {i : Fin procsMax}
    {image n : ℕ} {loc : List ℕ → Option ℕ} {frames : List ℕ}
    (hn : NewSpace l base t t' i image n loc frames) {x : ℕ} (hx : x < l.freeRam)
    (hslot : ¬ InSlot l i x) : t'.pages.mem x = t.pages.mem x := by
  rw [hn.kept x (Loader.held_outside _ (.inl hx)), framed_outside l t hslot]

theorem initProc_idle {l : Layout} {m : Mem} {σ : Machine} {t : ProcTable}
    (ho : Owned (heapOf l) [] ⟨σ, []⟩) (hlow : ∀ x, x < l.freeRam → σ.mem x = m x)
    (hc : createProcess kallocPage l ⟨⟨σ, []⟩, noProcs⟩ 0 0 = some (0, t))
    (hok : 0 ∉ t.pages.granted) :
    ∃ k, initProc kallocPage l ⟨⟨σ, []⟩, noProcs⟩ = some k ∧ IdleReady l m k := by
  have hk := kallocPage_allocator (heapOf l) []
  obtain ⟨loc, frames, hn⟩ := createProcess_space (t := ⟨⟨σ, []⟩, noProcs⟩) hk ho hc hok
  obtain ⟨-, -, hp⟩ := createProcess_cases hc
  have hroot := SavedContexts.createProcess_root (t := ⟨⟨σ, []⟩, noProcs⟩) ho hc hok
  have hinit : initProc kallocPage l ⟨⟨σ, []⟩, noProcs⟩ = some _ :=
    Option.bind_eq_some_iff.mpr ⟨(0, t), hc, rfl⟩
  have hproc : ∀ i, (update t.procs 0 { t.procs 0 with pid := 0 } i).state = (t.procs i).state ∧
      (update t.procs 0 { t.procs 0 with pid := 0 } i).pageTable = (t.procs i).pageTable := by
    intro i
    by_cases hi : i = 0
    · rw [hi, update_self]
      exact ⟨rfl, rfl⟩
    · rw [update_of_ne hi]
      exact ⟨rfl, rfl⟩
  have hsp := (no_process_spaces l ho noProcs_unused).create (i := 0) rfl
    (by rw [hp, update_self]; exact ProcState.noConfusion) (fun j hj => by rw [hp, update_of_ne hj])
    hn
  rw [show update (fun _ => 0) 0 0 = fun _ : Fin procsMax => 0 from update_eq_self 0 _] at hsp
  refine ⟨_, hinit, ?_⟩
  constructor
  · refine ⟨_, _, hsp.transfer hn.space.owned rfl ?_ ?_ fun _ _ _ _ => rfl⟩
    · exact fun i => by rw [(hproc i).1]
    · exact fun i => (hproc i).2
  · exact Scheduler.initProc_invariant noProcs_unused hinit
  · exact Scheduler.initProc_registered noProcs_unused hinit
  · dsimp only
    rw [(hproc 0).2]
    exact hroot
  · have hcount := hn.space.count
    dsimp only [List.length_nil] at hcount
    change t.pages.granted.length = pagesNeeded l 0
    rw [pagesNeeded]
    omega
  · intro x hx hslot
    exact (newSpace_low hn hx hslot).trans (hlow x hx)

theorem initProc_ready (l : Layout) (m : Mem) :
    ∃ k, initProc kallocPage l ⟨⟨(boot (heapOf l) m).machine, []⟩, noProcs⟩ = some k ∧
      IdleReady l m k := by
  have hk := kallocPage_allocator (heapOf l) []
  obtain ⟨t, hc, hok⟩ := createProcess_after_boot hk m noProcs_unused 0 (Nat.zero_le _)
  exact initProc_idle (owned_boot (heapOf l) m) (fun x hx => boot_low (heapOf l) m hx) hc hok

theorem heapEnd_lt (l : Layout) : (heapOf l).heapEnd ≤ 2 ^ 32 := by
  have hend := l.ram_end
  simp only [heapOf, Layout.freeRamEnd]
  omega

section
variable {δ : Type} {bus : Bus δ} {l : Layout} {m : Mem} {d : δ}

theorem IdleReady.drivers {k : Kernel} {blk : BlkDevice} {w' : World δ} (hr : IdleReady l m k)
    (hi : Initialised bus (heapOf l) [] k.pages.granted ⟨k.pages.toMachine, d, []⟩ blk w') :
    Ready l m { k with pages := ⟨w'.machine, k.pages.granted⟩ } blk := by
  obtain ⟨loc, frames, hsp⟩ := hr.spaces
  have hiso := hsp.isolated
  have ho := hi.owned
  have hpages := hi.pages
  rw [List.append_nil] at ho hpages
  have hadd := hiso.owned.freePages_add
  have hadd' := ho.freePages_add
  rw [freePages_nil, heapOf_totalPages] at hadd
  constructor
  · refine ⟨loc, frames, hsp.transfer ho rfl (fun _ => Iff.rfl) (fun _ => rfl) ?_⟩
    exact fun i hu x hx => hi.kept x (hiso.table_held hu hx).1
  · have hs := hr.scheduled
    exact ⟨hs.idle_slot, hs.idle_pid, hs.idle_runnable, hs.pid_slot, hs.current_runnable,
      hs.exit_exited, hs.no_return⟩
  · exact hr.alone
  · exact hr.root
  · exact hr.pages
  · dsimp only at hadd'
    omega
  · intro x hx hslot
    exact (hi.kept x (Loader.held_outside _ (.inl hx))).trans (hr.low x hx hslot)

/-- Only the device can keep `kmain` from creating its first process. -/
theorem kmainInit_cases (bus : Bus δ) (l : Layout) (m : Mem) (d : δ) :
    (Identifies bus blkPort virtioDeviceBlk d ∧
      ∃ k blk d', kmainInit bus l m d = some (k, blk, d') ∧ Ready l m k blk) ∨
    (¬ Identifies bus blkPort virtioDeviceBlk d ∧ kmainInit bus l m d = none) := by
  obtain ⟨k, hinit, hr⟩ := initProc_ready l m
  obtain ⟨loc, frames, hsp⟩ := hr.spaces
  have hiso := hsp.isolated
  have hneed := pagesNeeded_le l (Nat.zero_le maxImage)
  have hgranted := hr.pages
  have hadd := hiso.owned.freePages_add
  rw [freePages_nil, heapOf_totalPages] at hadd
  unfold kmainInit
  rw [hinit, Option.bind_eq_bind, Option.bind_some]
  rcases virtioBlkInit_cases (w := ⟨k.pages.toMachine, d, []⟩) bus (heapEnd_lt l) hiso.owned with
    ⟨hid, -, blk, w', hrun, hi⟩ | ⟨hid, msg, d', hrun⟩ | ⟨-, hno, -⟩ | ⟨-, htwo, -⟩
  · rw [hrun]
    exact .inl ⟨hid, _, _, _, rfl, hr.drivers hi⟩
  · rw [hrun]
    exact .inr ⟨hid, rfl⟩
  · refine absurd (BlockGrants.pair_served hiso.owned ?_) hno
    rw [heapOf_totalPages]
    omega
  · change freePages (heapOf l) [] k.pages.granted = 2 at htwo
    omega

/-- What `kmain` has set up when it yields: the idle process and the shell have complete address
spaces, the shell is the one process there is to run, and every page is accounted for. -/
structure Started (l : Layout) (m : Mem) (shell shellSize : ℕ) (k : Kernel) (blk : BlkDevice) :
    Prop where
  current : k.currentProc = 0 ∧ k.idleProc = 0 ∧ (k.procs 0).pid = 0
  created : (k.procs 1).pid = 2 ∧ (k.procs 1).state = .runnable
  others : ∀ i, i ≠ 0 → i ≠ 1 → (k.procs i).state = .unused
  next : nextProc k = 1
  idle_space : LaidOut l k.pages.mem (k.procs 0).pageTable 0
  shell_space : LaidOut l k.pages.mem (k.procs 1).pageTable shellSize
  image : ∀ j, j < shellSize →
    k.pages.mem (vaddrToPaddr k.pages.mem (k.procs 1).pageTable (userBase + j)) = m (shell + j)
  isolated : Isolation.IsolationFacts kallocPage l k.toProcTable
  taken : k.pages.granted.length = pagesNeeded l 0 + pagesNeeded l shellSize
  left : freePages (heapOf l) (driverBlocks blk) k.pages.granted + 3 +
    (pagesNeeded l 0 + pagesNeeded l shellSize) = 32768

/-- Where `objcopy` puts the shell: in the image of the kernel, outside the process array. -/
def Embedded (l : Layout) (shell shellSize : ℕ) : Prop :=
  ∀ x, shell ≤ x → x < shell + shellSize →
    x < l.freeRam ∧ ¬ (l.procs ≤ x ∧ x < l.procs + procsMax * processSize)

theorem slot_in_procs {l : Layout} {i : Fin procsMax} {x : ℕ} (hx : InSlot l i x) :
    l.procs ≤ x ∧ x < l.procs + procsMax * processSize := by
  have b := SavedContexts.layout_bounds l i
  have hproc : l.proc i = l.procs + i * 8216 := rfl
  have hsize : processSize = 8216 := rfl
  obtain ⟨h1, h2⟩ := hx
  simp only [procsMax, hsize]
  omega

theorem Ready.slots {k : Kernel} {blk : BlkDevice} (hr : Ready l m k blk) :
    ProcessSlots.SlotsUsed 0 (Scheduler.start k) := by
  intro i
  refine (hr.alone i).trans ?_
  rw [Fin.ext_iff]
  exact Nat.le_zero.symm

theorem Ready.current {k : Kernel} {blk : BlkDevice} (hr : Ready l m k blk) :
    k.currentProc = 0 := by
  apply (hr.alone _).mp
  rw [show (k.procs k.currentProc).state = .runnable from hr.scheduled.current_runnable]
  exact ProcState.noConfusion

theorem Ready.slot {k : Kernel} {blk : BlkDevice} (hr : Ready l m k blk) :
    findUnused k.procs = some 1 := by
  have hfree : findUnused k.procs ≠ none := mt hr.slots.panic_iff.mp (by decide)
  obtain ⟨i, hi⟩ := Option.ne_none_iff_exists'.mp hfree
  rw [hi]
  exact congrArg some (Fin.ext (hr.slots.find hi))

theorem Ready.shell {k : Kernel} {blk : BlkDevice} {shell n : ℕ} (hr : Ready l m k blk)
    (hn : n ≤ maxImage) (hshell : Embedded l shell n) :
    ∃ t, createProcess kallocPage l k.toProcTable shell n = some (1, t) ∧
      Started l m shell n { k with toProcTable := t } blk := by
  obtain ⟨loc, frames, hsp⟩ := hr.spaces
  have hiso := hsp.isolated
  have hk := kallocPage_allocator (heapOf l) (driverBlocks blk)
  have hadd := hiso.owned.freePages_add
  have hneed := pagesNeeded_le l hn
  have hidle := pagesNeeded_le l (Nat.zero_le maxImage)
  have hfree := hr.free
  have hpages := hr.pages
  obtain ⟨t, hc, hok⟩ := createProcess_served (t := k.toProcTable) hk hiso.owned shell hr.slot
    (by omega : pagesNeeded l n ≤ _)
  obtain ⟨newLoc, newFrames, hs⟩ := createProcess_space hk hiso.owned hc hok
  obtain ⟨-, -, hp⟩ := createProcess_cases hc
  have hcount : t.pages.granted.length = pagesNeeded l 0 + pagesNeeded l n := by
    have hlen := hs.space.count
    rw [← hpages, pagesNeeded]
    omega
  have hleft := hs.space.owned.freePages_add
  have hcur := hr.current
  have hcreated := Isolation.create_invariant hiso (fun hu => hu (findUnused_spec hr.slot).1)
    (fun i hi => by rw [hp, update_of_ne hi]) hs
  have hidleUsed : (k.procs 0).state ≠ .unused := (hr.alone 0).mpr rfl
  have hzero : t.procs 0 = k.procs 0 := by rw [hp, update_of_ne (by decide)]
  have hone : t.procs 1 = ⟨2, .runnable, (kallocPage (framed l k.toProcTable 1)).1⟩ := by
    rw [hp, update_self]
    rfl
  have hrest : ∀ i, i ≠ 0 → i ≠ 1 → (t.procs i).state = .unused := by
    intro i h0 h1
    rw [hp, update_of_ne h1]
    by_contra hu
    exact h0 ((hr.alone i).mp hu)
  refine ⟨t, hc, ?_⟩
  constructor
  · refine ⟨hcur, hr.scheduled.idle_slot, ?_⟩
    dsimp only
    rw [hzero]
    exact hr.scheduled.idle_pid
  · dsimp only
    rw [hone]
    exact ⟨rfl, rfl⟩
  · exact hrest
  · apply Scheduler.nextProc_only
    · dsimp only
      rw [hone]
      exact ⟨rfl, Nat.two_pos⟩
    · rintro i hi ⟨hrun, hpos⟩
      dsimp only at hrun hpos
      by_cases h0 : i = 0
      · rw [h0, hzero, show (k.procs 0).pid = 0 from hr.scheduled.idle_pid] at hpos
        exact lt_irrefl 0 hpos
      · rw [hrest i h0 hi] at hrun
        cases hrun
  · have htable := hcreated.table 0 (by rw [Isolation.Registered, hzero]; exact hidleUsed)
    rw [update_of_ne (by decide), update_of_ne (by decide), update_of_ne (by decide)] at htable
    exact laidOut_of_table htable (hsp.frames_length 0 hidleUsed) (Nat.zero_le _)
  · exact laidOut_of_table hs.space.table hs.length hn
  · intro j hj
    obtain ⟨hlow, hapart⟩ := hshell (shell + j) (by omega) (by omega)
    have hloaded := Loader.loaded_of_newSpace hn hs fun x h1 h2 => .inl (hshell x h1 h2).1
    have hkept := hloaded.image_kept j hj fun hin => hapart (slot_in_procs hin)
    have hbefore := hr.low (shell + j) hlow fun hin => hapart (slot_in_procs hin)
    exact (hloaded.image_bytes j hj).trans (hkept.trans hbefore)
  · exact Isolation.facts_of_invariant hcreated
  · exact hcount
  · change freePages _ _ t.pages.granted + 3 + _ = _
    omega

/-- `kmain` gets to its `yield` exactly when the first device is a disk, whatever was in
memory and for every shell that fits its region. -/
theorem kmain_starts_shell_iff (bus : Bus δ) (l : Layout) (shell shellSize : ℕ) (m : Mem) (d : δ)
    (hn : shellSize ≤ maxImage) (hshell : Embedded l shell shellSize) :
    (kmain bus l shell shellSize m d ≠ none ↔ Identifies bus blkPort virtioDeviceBlk d) ∧
    ∀ k blk d', kmain bus l shell shellSize m d = some (k, blk, d') →
      Started l m shell shellSize k blk := by
  rcases kmainInit_cases bus l m d with ⟨hid, k, blk, d', hinit, hr⟩ | ⟨hid, hinit⟩
  · obtain ⟨t, hc, hs⟩ := hr.shell hn hshell
    have hrun : kmain bus l shell shellSize m d = some ({ k with toProcTable := t }, blk, d') := by
      unfold kmain
      rw [hinit, Option.bind_eq_bind, Option.bind_some]
      dsimp only
      rw [hc]
      rfl
    refine ⟨iff_of_true (by rw [hrun]; exact Option.some_ne_none _) hid, ?_⟩
    intro k' blk' d'' he
    rw [hrun] at he
    cases he
    exact hs
  · have hrun : kmain bus l shell shellSize m d = none := by
      unfold kmain
      rw [hinit]
      rfl
    refine ⟨iff_of_false (fun hne => hne hrun) hid, ?_⟩
    intro k blk d' he
    rw [hrun] at he
    cases he

end

theorem sample_embedded : Embedded sampleLayout kernelBase 0x1000 := by
  intro x h1 h2
  have hfree : sampleLayout.freeRam = 0x80214000 := rfl
  have hprocs : sampleLayout.procs = 0x80201000 := rfl
  simp only [kernelBase] at h1 h2
  omega

theorem sample_board_starts_shell : ∃ k blk d',
    kmain sampleBus sampleLayout kernelBase 0x1000 (fun _ => 0) () = some (k, blk, d') ∧
    Started sampleLayout (fun _ => 0) kernelBase 0x1000 k blk := by
  obtain ⟨hiff, hstarted⟩ := kmain_starts_shell_iff sampleBus sampleLayout kernelBase 0x1000
    (fun _ => 0) () (by decide) sample_embedded
  obtain ⟨r, hr⟩ := Option.ne_none_iff_exists'.mp (hiff.mpr sampleBus_identifies)
  exact ⟨r.1, r.2.1, r.2.2, hr, hstarted _ _ _ hr⟩

end Boot
