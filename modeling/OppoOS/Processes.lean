import OppoOS.Paging

/-!
# Processes and the scheduler

`kernel/schedule/proc.c`. Registered processes live in the array `procs`. The kernel stack of
a slot, the last field of its element, and the field `sp`, which only assembly code reads, are
memory. A panic is `none`.
The number of pages a loop visits is computed from its bounds, so images are smaller than
the address space. `yield` is modelled up to the switch of registers.
-/
namespace Processes

open ByteMemory BuddyAllocator Paging Function

abbrev procsMax : ℕ := 8

instance instNeZeroProcsMax : NeZero procsMax := ⟨by decide⟩

inductive ProcState where
  | unused
  | runnable
  | exited
  deriving DecidableEq, Repr

/-- The fields of `struct process` besides `sp` and the stack. -/
structure Process where
  pid : ℕ
  state : ProcState
  pageTable : ℕ
  deriving DecidableEq, Repr

def kernelBase : ℕ := 0x80200000
def userBase : ℕ := 0x1000000
def virtioPaddr : ℕ := 0x10001000
def stackSize : ℕ := 8192

/-- `sizeof(struct process)`: 24 bytes of other fields come before the stack. -/
def processSize : ℕ := 24 + stackSize

/-- Where the linker puts things: `procs`, `user_entry`, `stack_top` and `__free_ram`. RAM
ends where the device tree of the board says. -/
structure Layout where
  procs : ℕ
  userEntry : ℕ
  bootStackTop : ℕ
  freeRam : ℕ
  procs_aligned : 8 ∣ procs
  procs_inside : kernelBase ≤ procs ∧ procs + procsMax * processSize ≤ freeRam
  userEntry_inside : kernelBase ≤ userEntry ∧ userEntry < freeRam
  bootStack_inside : procs + procsMax * processSize + stackSize ≤ bootStackTop ∧
    bootStackTop ≤ freeRam
  freeRam_aligned : pageSize ∣ freeRam
  ram_end : freeRam + 128 * 1024 * 1024 ≤ 0xC0000000

def sampleLayout : Layout where
  procs := 0x80201000
  userEntry := 0x80200000
  bootStackTop := 0x802130C0
  freeRam := 0x80214000
  procs_aligned := by decide
  procs_inside := by decide
  userEntry_inside := by decide
  bootStack_inside := by decide
  freeRam_aligned := by decide
  ram_end := by decide

def Layout.freeRamEnd (l : Layout) : ℕ := l.freeRam + 128 * 1024 * 1024

/-- `&procs[i]`. -/
def Layout.proc (l : Layout) (i : Fin procsMax) : ℕ := l.procs + i * processSize

/-- `&procs[i].sp`. -/
def Layout.spAddr (l : Layout) (i : Fin procsMax) : ℕ := l.proc i + 8

/-- `&procs[i].stack[sizeof(procs[i].stack)]`. -/
def Layout.stackTop (l : Layout) (i : Fin procsMax) : ℕ := l.proc i + processSize

structure ProcTable where
  pages : Pages
  procs : Fin procsMax → Process

def noProcs : Fin procsMax → Process := fun _ => ⟨0, .unused, 0⟩

/-- After `init_proc` the two process pointers are slots of the array. -/
structure Kernel extends ProcTable where
  currentProc : Fin procsMax
  idleProc : Fin procsMax

/-- `for (a = lo; a < hi; a += PAGE_SIZE)`. -/
def pageAddrs (lo hi : ℕ) : List ℕ :=
  (List.range ((hi - lo + pageSize - 1) / pageSize)).map fun i => lo + pageSize * i

/-- `*--sp = v`. -/
def pushWord (r : Mem × ℕ) (v : ℕ) : Mem × ℕ := (store64 r.1 (r.2 - 8) v, r.2 - 8)

/-- Zeros for `s11` to `s0`, then `user_entry` for `ra`. -/
def initialFrame (l : Layout) (m : Mem) (sp : ℕ) : Mem × ℕ :=
  (List.replicate 12 0 ++ [l.userEntry]).foldl pushWord (m, sp)

/-- The pages from `__kernel_base` to `__free_ram_end`. -/
def Layout.kernelPages (l : Layout) : List ℕ := pageAddrs kernelBase l.freeRamEnd

/-- `VIRTIO_PADDR + (0x1000 * i)`: each device has a page. -/
def devicePages : List ℕ := (List.range 8).map fun i => virtioPaddr + 0x1000 * i

section
variable (kalloc : Pages → ℕ × Pages)

def mapAll (pageTable flags : ℕ) : List ℕ → Pages → Option Pages
  | [], σ => some σ
  | a :: as, σ => do
    let σ ← mapPage kalloc σ pageTable a a flags
    mapAll pageTable flags as σ

/-- The loop over the image, by the offsets still to do. -/
def loadImage (pageTable image imageSize : ℕ) : List ℕ → Pages → Option Pages
  | [], σ => some σ
  | off :: offs, σ => do
    let r := kalloc σ
    let remaining := imageSize - off
    let copySize := if pageSize ≤ remaining then pageSize else remaining
    let σ := { r.2 with mem := memcpy r.2.mem r.1 (image + off) copySize }
    let σ ← mapPage kalloc σ pageTable (userBase + off) r.1 (pageU ||| pageR ||| pageW ||| pageX)
    loadImage pageTable image imageSize offs σ

/-- The page table of a new process: the kernel's pages, the eight device pages, the image. -/
def buildSpace (l : Layout) (pageTable image imageSize : ℕ) (σ : Pages) : Option Pages := do
  let σ ← mapAll kalloc pageTable (pageR ||| pageW ||| pageX) l.kernelPages σ
  let σ ← mapAll kalloc pageTable (pageR ||| pageW) devicePages σ
  loadImage kalloc pageTable image imageSize (pageAddrs 0 imageSize) σ

def findUnused (procs : Fin procsMax → Process) : Option (Fin procsMax) :=
  (List.finRange procsMax).find? fun i => (procs i).state = .unused

/-- The slot of the new process and the table after the call. -/
def createProcess (l : Layout) (t : ProcTable) (image imageSize : ℕ) :
    Option (Fin procsMax × ProcTable) := do
  let i ← findUnused t.procs
  let frame := initialFrame l t.pages.mem (l.stackTop i)
  let r := kalloc { t.pages with mem := store64 frame.1 (l.spAddr i) frame.2 }
  let σ ← buildSpace kalloc l r.1 image imageSize r.2
  let proc : Process := { pid := i + 1, state := .runnable, pageTable := r.1 }
  some (i, { pages := σ, procs := update t.procs i proc })

def initProc (l : Layout) (t : ProcTable) : Option Kernel := do
  let (idle, t) ← createProcess kalloc l t 0 0
  some { pages := t.pages
         procs := update t.procs idle { t.procs idle with pid := 0 }
         currentProc := idle
         idleProc := idle }

end

/-- `procs[(current_proc->pid + i) % PROCS_MAX]`. -/
def slotAfter (k : Kernel) (i : ℕ) : Fin procsMax :=
  Fin.ofNat procsMax ((k.procs k.currentProc).pid + i)

/-- The process `yield` switches to: the first runnable one that is not the idle task. -/
def nextProc (k : Kernel) : Fin procsMax :=
  (((List.range procsMax).map (slotAfter k)).find? fun p =>
    (k.procs p).state = .runnable ∧ 0 < (k.procs p).pid).getD k.idleProc

/-- When the next process is the current one, `yield` returns at once; either way it ends
as the current process. -/
def yield (k : Kernel) : Kernel := { k with currentProc := nextProc k }

/-- `current_proc->state = PROC_EXITED`. -/
def markExited (k : Kernel) : Kernel :=
  let proc := { k.procs k.currentProc with state := .exited }
  { k with procs := update k.procs k.currentProc proc }

def procExit (k : Kernel) : Kernel := yield (markExited k)

theorem pushWords_sp (ws : List ℕ) (m : Mem) (sp : ℕ) :
    (ws.foldl pushWord (m, sp)).2 = sp - 8 * ws.length := by
  induction ws generalizing m sp with
  | nil => rfl
  | cons w ws ih =>
    rw [List.foldl_cons, pushWord, ih, List.length_cons]
    omega

theorem pushWords_outside (ws : List ℕ) (m : Mem) {sp x : ℕ} (hsp : 8 * ws.length ≤ sp)
    (hx : x < sp - 8 * ws.length ∨ sp ≤ x) : (ws.foldl pushWord (m, sp)).1 x = m x := by
  induction ws generalizing m sp with
  | nil => rfl
  | cons w ws ih =>
    rw [List.length_cons] at hsp hx
    rw [List.foldl_cons, pushWord, ih _ (by omega) (by omega)]
    exact store64_outside m _ _ x (by omega)

theorem findUnused_spec {procs : Fin procsMax → Process} {i : Fin procsMax}
    (h : findUnused procs = some i) :
    (procs i).state = .unused ∧ ∀ j, j < i → (procs j).state ≠ .unused := by
  unfold findUnused at h
  obtain ⟨hi, as, bs, hl, has⟩ := List.find?_eq_some_iff_append.mp h
  refine ⟨by simpa using hi, fun j hj => ?_⟩
  have hsorted : (List.finRange procsMax).Pairwise (· < ·) := List.pairwise_lt_finRange _
  have hmem : j ∈ as ++ i :: bs := by
    rw [← hl]
    exact List.mem_finRange j
  rw [hl, List.pairwise_append, List.pairwise_cons] at hsorted
  rcases List.mem_append.mp hmem with hm | hm
  · simpa using has j hm
  · rcases List.mem_cons.mp hm with rfl | hm
    · exact absurd hj (lt_irrefl j)
    · exact absurd hj (lt_asymm (hsorted.2.1.1 j hm))

theorem findUnused_eq_none {procs : Fin procsMax → Process} :
    findUnused procs = none ↔ ∀ i, (procs i).state ≠ .unused := by
  simp [findUnused, List.find?_eq_none]

theorem findUnused_after {procs : Fin procsMax → Process} {n : ℕ}
    (h : ∀ i, (procs i).state ≠ .unused ↔ (i : ℕ) ≤ n) {i : Fin procsMax}
    (hi : findUnused procs = some i) : (i : ℕ) = n + 1 := by
  obtain ⟨hun, hmin⟩ := findUnused_spec hi
  have hgt : ¬ (i : ℕ) ≤ n := fun hle => (h i).mpr hle hun
  by_contra hne
  have hlt : n + 1 < procsMax := by
    have := i.isLt
    omega
  have hused := hmin ⟨n + 1, hlt⟩ (Fin.lt_def.mpr (by simp only; omega))
  have := (h ⟨n + 1, hlt⟩).mp hused
  simp only at this
  omega

theorem findUnused_all {procs : Fin procsMax → Process} (h : ∀ i, (procs i).state = .unused) :
    findUnused procs = some 0 := by
  simp [findUnused, List.finRange_succ, h]

theorem noProcs_unused (i : Fin procsMax) : (noProcs i).state = .unused := rfl

def framed (l : Layout) (t : ProcTable) (i : Fin procsMax) : Pages :=
  let frame := initialFrame l t.pages.mem (l.stackTop i)
  { t.pages with mem := store64 frame.1 (l.spAddr i) frame.2 }

/-- Everything a successful `create_process` does, cut at the calls it makes. -/
theorem createProcess_cases {kalloc : Pages → ℕ × Pages} {l : Layout} {t t' : ProcTable}
    {image imageSize : ℕ} {i : Fin procsMax}
    (h : createProcess kalloc l t image imageSize = some (i, t')) :
    findUnused t.procs = some i ∧
      let r := kalloc (framed l t i)
      buildSpace kalloc l r.1 image imageSize r.2 = some t'.pages ∧
        t'.procs = update t.procs i
          { pid := i + 1
            state := .runnable
            pageTable := r.1 } := by
  unfold createProcess at h
  obtain ⟨j, hj, h⟩ := Option.bind_eq_some_iff.mp h
  obtain ⟨σ, hσ, h⟩ := Option.bind_eq_some_iff.mp h
  simp only [Option.some.injEq, Prod.mk.injEq] at h
  obtain ⟨rfl, rfl⟩ := h
  exact ⟨hj, hσ, rfl⟩

section
variable (kalloc : Pages → ℕ × Pages)

theorem mapPage_returns {v paddr flags : ℕ} (hv : pageSize ∣ v) (hp : pageSize ∣ paddr)
    (hf : flags &&& 0xe ≠ 0) (root : ℕ) (σ : Pages) :
    ∃ σ', mapPage kalloc σ root v paddr flags = some σ' := by
  have h1 := (isAligned_iff v).mpr hv
  have h2 := (isAligned_iff paddr).mpr hp
  unfold mapPage
  simp only [h1, h2, hf, not_true_eq_false, if_false]
  exact ⟨_, rfl⟩

theorem mapAll_returns (root : ℕ) {flags : ℕ} (hf : flags &&& 0xe ≠ 0) (as : List ℕ)
    (ha : ∀ a ∈ as, pageSize ∣ a) (σ : Pages) :
    ∃ σ', mapAll kalloc root flags as σ = some σ' := by
  induction as generalizing σ with
  | nil => exact ⟨σ, rfl⟩
  | cons a as ih =>
    have hal := ha a List.mem_cons_self
    obtain ⟨σ₁, h₁⟩ := mapPage_returns kalloc hal hal hf root σ
    obtain ⟨σ₂, h₂⟩ := ih (fun b hb => ha b (List.mem_cons_of_mem _ hb)) σ₁
    exact ⟨σ₂, by simp [mapAll, h₁, h₂]⟩

theorem mem_pageAddrs {lo hi a : ℕ} :
    a ∈ pageAddrs lo hi ↔ ∃ i, i < (hi - lo + pageSize - 1) / pageSize ∧ lo + pageSize * i = a := by
  simp only [pageAddrs, List.mem_map, List.mem_range]

theorem kernelPages_aligned (l : Layout) : ∀ a ∈ l.kernelPages, pageSize ∣ a := by
  intro a ha
  obtain ⟨i, -, rfl⟩ := mem_pageAddrs.mp ha
  exact Nat.dvd_add (by decide) (Nat.dvd_mul_right _ _)

theorem devicePages_aligned : ∀ a ∈ devicePages, pageSize ∣ a := by decide

theorem buildSpace_eq_some {l : Layout} {root image imageSize : ℕ} {σ σ' : Pages} :
    buildSpace kalloc l root image imageSize σ = some σ' ↔
      ∃ σ₁ σ₂, mapAll kalloc root (pageR ||| pageW ||| pageX) l.kernelPages σ = some σ₁ ∧
        mapAll kalloc root (pageR ||| pageW) devicePages σ₁ = some σ₂ ∧
        loadImage kalloc root image imageSize (pageAddrs 0 imageSize) σ₂ = some σ' := by
  unfold buildSpace
  generalize l.kernelPages = ks
  generalize devicePages = ds
  constructor
  · intro h
    obtain ⟨σ₁, h₁, h⟩ := Option.bind_eq_some_iff.mp h
    obtain ⟨σ₂, h₂, h⟩ := Option.bind_eq_some_iff.mp h
    exact ⟨σ₁, σ₂, h₁, h₂, h⟩
  · rintro ⟨σ₁, σ₂, h₁, h₂, h₃⟩
    exact Option.bind_eq_some_iff.mpr ⟨σ₁, h₁, Option.bind_eq_some_iff.mpr ⟨σ₂, h₂, h₃⟩⟩

theorem buildSpace_returns (l : Layout) (root image : ℕ) (σ : Pages) :
    ∃ σ', buildSpace kalloc l root image 0 σ = some σ' := by
  have hkernel : (pageR ||| pageW ||| pageX) &&& 0xe ≠ 0 := by decide
  have hdevice : (pageR ||| pageW) &&& 0xe ≠ 0 := by decide
  obtain ⟨σ₁, h₁⟩ := mapAll_returns kalloc root hkernel _ (kernelPages_aligned l) σ
  obtain ⟨σ₂, h₂⟩ := mapAll_returns kalloc root hdevice _ devicePages_aligned σ₁
  exact ⟨σ₂, (buildSpace_eq_some kalloc).mpr ⟨σ₁, σ₂, h₁, h₂, rfl⟩⟩

theorem createProcess_eq_some {l : Layout} {t : ProcTable} {image imageSize : ℕ}
    {i : Fin procsMax} {σ : Pages} (hi : findUnused t.procs = some i)
    (hb : let r := kalloc (framed l t i)
      buildSpace kalloc l r.1 image imageSize r.2 = some σ) :
    ∃ t', createProcess kalloc l t image imageSize = some (i, t') ∧ t'.pages = σ :=
  ⟨_, Option.bind_eq_some_iff.mpr ⟨i, hi, Option.bind_eq_some_iff.mpr ⟨σ, hb, rfl⟩⟩, rfl⟩

theorem initProc_returns (l : Layout) {t : ProcTable} {i : Fin procsMax}
    (hi : findUnused t.procs = some i) : ∃ k, initProc kalloc l t = some k := by
  obtain ⟨σ, hb⟩ := buildSpace_returns kalloc l (kalloc (framed l t i)).1 0
    (kalloc (framed l t i)).2
  obtain ⟨t', ht, -⟩ := createProcess_eq_some kalloc hi hb
  exact ⟨_, Option.bind_eq_some_iff.mpr ⟨(i, t'), ht, rfl⟩⟩

end

end Processes
