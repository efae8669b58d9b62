import OppoOS.BlockGrants
import OppoOS.DiskDriver
import OppoOS.ProcessSpace

/-!
# Device initialisation

`virtio_reg_read32` and its siblings, `virtq_init` and `virtio_blk_init` of
`drivers/virtio/`, over any device behind the registers. Reading a register may change the
device. The queue that `virtq_init` lays out in memory is the one of the queue model.
-/
namespace DeviceInit

open ByteMemory BuddyTiling BuddyAllocator AllocatorRefinement AllocatorRuns PageGrants
open Paging BlockGrants Virtqueue
open DescriptorChains (blkReqSize)
open Processes (virtioPaddr sampleLayout)
open ProcessSpace (heapOf heapOf_totalPages)

structure Bus (δ : Type) where
  read32 : δ → ℕ → UInt32 × δ
  read64 : δ → ℕ → UInt64 × δ
  write32 : δ → ℕ → UInt32 → δ

structure World (δ : Type) where
  machine : Machine
  device : δ
  writes : List (ℕ × UInt32)

/-- Driver code, which may panic with a text. -/
abbrev Driver (δ α : Type) := ExceptT String (StateM (World δ)) α

/-- `if (!c) PANIC(msg)`. -/
def require {δ : Type} (c : Prop) [Decidable c] (msg : String) : Driver δ Unit := fun w =>
  (if c then .ok () else .error msg, w)

def regMagic : ℕ := 0x000
def regVersion : ℕ := 0x004
def regDeviceId : ℕ := 0x008
def regStatus : ℕ := 0x070
def regConfig : ℕ := 0x100

def virtioMagicNumber : UInt32 := 0x74726976
def virtioDeviceBlk : UInt32 := 2

def statusAcknowledge : UInt32 := 1
def statusDriver : UInt32 := 2
def statusDriverOk : UInt32 := 4
def statusFeaturesOk : UInt32 := 8

/-- `(VIRTIO_PADDR + (port * 0x1000)) + offset`. -/
def regAddr (port offset : ℕ) : ℕ := virtioPaddr + port * 0x1000 + offset

section
variable {δ : Type} (bus : Bus δ)

def virtioRegRead32 (port offset : ℕ) : Driver δ UInt32 := fun w =>
  let r := bus.read32 w.device (regAddr port offset)
  (.ok r.1, { w with device := r.2 })

def virtioRegRead64 (port offset : ℕ) : Driver δ UInt64 := fun w =>
  let r := bus.read64 w.device (regAddr port offset)
  (.ok r.1, { w with device := r.2 })

def virtioRegWrite32 (port offset : ℕ) (value : UInt32) : Driver δ Unit := fun w =>
  (.ok (), { w with
    device := bus.write32 w.device (regAddr port offset) value
    writes := w.writes ++ [(regAddr port offset, value)] })

def virtioRegFetchAndOr32 (port offset : ℕ) (value : UInt32) : Driver δ Unit := do
  let old ← virtioRegRead32 bus port offset
  virtioRegWrite32 bus port offset (old ||| value)

end

def alignUp (value align : UInt64) : UInt64 := (value + align - 1) &&& ~~~(align - 1)

/-- `align_up(size, PAGE_SIZE) / PAGE_SIZE`. -/
def pagesOf (size : UInt64) : ℕ := (alignUp size 4096 / 4096).toNat

def load16 (m : Mem) (a : ℕ) : ℕ := loadLE m a 2

section
variable {δ : Type}

def kallocPages (n : ℕ) : Driver δ ℕ := fun w =>
  let r := kalloc w.machine n
  (.ok r.1, { w with machine := r.2 })

def modifyMem (f : Mem → Mem) : Driver δ Unit := fun w =>
  (.ok (), { w with machine := { w.machine with mem := f w.machine.mem } })

end

/-- Offsets in `struct virt_queue`; `used` starts on a page of its own. -/
def availOffset : ℕ := 256
def usedOffset : ℕ := 4096
def queueIndexOffset : ℕ := 4228
def usedIndexOffset : ℕ := 4232
def lastUsedIndexOffset : ℕ := 4240

def virtQueueSize : UInt64 := 8192

def descAt (m : Mem) (a : ℕ) : VirtqDesc where
  addr := load64 m a
  len := load32 m (a + 8)
  flags := load16 m (a + 12)
  next := load16 m (a + 14)

/-- The `struct virt_queue` at `a`; `used.idx` is read through the pointer `used_index`. -/
def queueAt (m : Mem) (a : ℕ) : VirtQueue where
  buffers i := descAt m (a + 16 * i)
  avail :=
    { idx := load16 m (a + availOffset + 2)
      ring := fun j => load16 m (a + availOffset + 4 + 2 * j) }
  usedIdx := load16 m (load64 m (a + usedIndexOffset))
  queueIndex := load32 m (a + queueIndexOffset)
  lastUsedIndex := load16 m (a + lastUsedIndexOffset)

/-- `vq->queue_index = index; vq->used_index = &vq->used.idx`. -/
def layoutQueue (a index : ℕ) (m : Mem) : Mem :=
  store64 (store32 m (a + queueIndexOffset) index) (a + usedIndexOffset) (a + usedOffset + 2)

section
variable {δ : Type} (bus : Bus δ)

def virtqInit (port index : ℕ) : Driver δ ℕ := do
  let virtqPaddr ← kallocPages (pagesOf virtQueueSize)
  require (virtqPaddr ≠ 0) "virtio: out of memory"
  modifyMem (layoutQueue virtqPaddr index)
  virtioRegWrite32 bus port queueSel (UInt32.ofNat index)
  virtioRegWrite32 bus port queueNum (UInt32.ofNat virtqEntryNum)
  virtioRegWrite32 bus port queueAlign 0
  virtioRegWrite32 bus port queuePfn (UInt32.ofNat virtqPaddr)
  return virtqPaddr

/-- The checks `virtio_blk_init` and `virtio_gpu_init` begin with. -/
def checkDevice (port : ℕ) (deviceId : UInt32) : Driver δ Unit := do
  let magic ← virtioRegRead32 bus port regMagic
  require (magic = virtioMagicNumber) "virtio: invalid magic value!"
  let version ← virtioRegRead32 bus port regVersion
  require (version = 1) "virtio: invalid version"
  let id ← virtioRegRead32 bus port regDeviceId
  require (id = deviceId) "virtio: invalid device id"

def startDevice (port : ℕ) : Driver δ ℕ := do
  virtioRegWrite32 bus port regStatus 0
  virtioRegFetchAndOr32 bus port regStatus statusAcknowledge
  virtioRegFetchAndOr32 bus port regStatus statusDriver
  virtioRegFetchAndOr32 bus port regStatus statusFeaturesOk
  let vq ← virtqInit bus port 0
  virtioRegWrite32 bus port regStatus statusDriverOk
  return vq

structure BlkDevice where
  requestVq : ℕ
  reqPaddr : ℕ
  capacity : ℕ
  deriving DecidableEq, Repr

def blkPort : ℕ := 0

def virtioBlkInit : Driver δ BlkDevice := do
  checkDevice bus blkPort virtioDeviceBlk
  let vq ← startDevice bus blkPort
  let sectors ← virtioRegRead64 bus blkPort regConfig
  let req ← kallocPages (pagesOf (UInt64.ofNat blkReqSize))
  require (req % 2 ^ 32 ≠ 0) "virtio-blk: out of memory"
  return ⟨vq, req % 2 ^ 32, sectors.toNat * DescriptorChains.sectorSize % 2 ^ 64⟩

end

theorem layoutQueue_outside (m : Mem) (a index : ℕ) {x : ℕ}
    (hx : x < a + queueIndexOffset ∨ a + usedIndexOffset + 8 ≤ x) :
    layoutQueue a index m x = m x := by
  simp only [queueIndexOffset, usedIndexOffset] at hx
  unfold layoutQueue queueIndexOffset usedIndexOffset
  rw [store64_outside _ _ _ _ (by omega), store32_outside _ _ _ _ (by omega)]

theorem layoutQueue_load {m : Mem} {a : ℕ} (index : ℕ)
    (hz : ∀ x, a ≤ x → x < a + 8192 → m x = 0) {b n : ℕ} (hl : a ≤ b) (hr : b + n ≤ a + 8192)
    (hb : b + n ≤ a + queueIndexOffset ∨ a + lastUsedIndexOffset ≤ b) :
    loadLE (layoutQueue a index m) b n = 0 := by
  simp only [queueIndexOffset, lastUsedIndexOffset] at hb
  apply loadLE_zero
  intro x h1 h2
  rw [layoutQueue_outside m a index (by simp only [queueIndexOffset, usedIndexOffset]; omega)]
  exact hz x (by omega) (by omega)

theorem layoutQueue_usedIndex (m : Mem) {a : ℕ} (index : ℕ) (ha : a + 8192 ≤ 2 ^ 64) :
    load64 (layoutQueue a index m) (a + usedIndexOffset) = a + usedOffset + 2 := by
  rw [layoutQueue, load64_store64_same]
  apply Nat.mod_eq_of_lt
  unfold usedOffset
  omega

theorem layoutQueue_queueIndex (m : Mem) (a : ℕ) {index : ℕ} (hi : index < 2 ^ 32) :
    load32 (layoutQueue a index m) (a + queueIndexOffset) = index := by
  have hagree : AgreeOn (store32 m (a + queueIndexOffset) index) (layoutQueue a index m)
      (a + queueIndexOffset) 4 := by
    intro x hl hr
    apply store64_outside
    simp only [queueIndexOffset, usedIndexOffset] at hl hr ⊢
    omega
  rw [load32_congr hagree, load32_store32_same]
  exact Nat.mod_eq_of_lt hi

/-- The queue that `virtq_init` lays out on zeroed pages is that of the queue model. -/
theorem queueAt_layoutQueue {m : Mem} {a index : ℕ} (ha : a + 8192 ≤ 2 ^ 64)
    (hi : index < 2 ^ 32) (hz : ∀ x, a ≤ x → x < a + 8192 → m x = 0) :
    queueAt (layoutQueue a index m) a = { zeroPages with queueIndex := index } := by
  have hload : ∀ b n, a ≤ b → b + n ≤ a + 8192 →
      (b + n ≤ a + queueIndexOffset ∨ a + lastUsedIndexOffset ≤ b) →
      loadLE (layoutQueue a index m) b n = 0 := fun b n => layoutQueue_load index hz
  have hused := layoutQueue_usedIndex m index ha
  have hindex := layoutQueue_queueIndex m a hi
  generalize layoutQueue a index m = m' at hload hused hindex
  simp only [queueIndexOffset, lastUsedIndexOffset] at hload
  have hdesc : ∀ i : Fin virtqEntryNum, descAt m' (a + 16 * i) = ⟨0, 0, 0, 0⟩ := by
    intro i
    have hlt : (i : ℕ) < 16 := i.isLt
    simp only [descAt, load64, load32, load16]
    rw [hload _ 8 (by omega) (by omega) (by omega), hload _ 4 (by omega) (by omega) (by omega),
      hload _ 2 (by omega) (by omega) (by omega), hload _ 2 (by omega) (by omega) (by omega)]
  have hring : ∀ j : Fin virtqEntryNum, load16 m' (a + availOffset + 4 + 2 * j) = 0 := by
    intro j
    have hlt : (j : ℕ) < 16 := j.isLt
    simp only [load16, availOffset]
    exact hload _ 2 (by omega) (by omega) (by omega)
  have hidx : load16 m' (a + availOffset + 2) = 0 := by
    simp only [load16, availOffset]
    exact hload _ 2 (by omega) (by omega) (by omega)
  have hlast : load16 m' (a + lastUsedIndexOffset) = 0 := by
    simp only [load16, lastUsedIndexOffset]
    exact hload _ 2 (by omega) (by omega) (by omega)
  have husedIdx : load16 m' (a + usedOffset + 2) = 0 := by
    simp only [load16, usedOffset]
    exact hload _ 2 (by omega) (by omega) (by omega)
  simp only [queueAt, zeroPages, hused, husedIdx, hindex, hidx, hlast, hdesc, hring]

theorem queueAt_congr {m m' : Mem} {a : ℕ} (h : AgreeOn m m' a 8192)
    (hp : load64 m (a + usedIndexOffset) = a + usedOffset + 2) : queueAt m' a = queueAt m a := by
  have hload : ∀ b n, a ≤ b → b + n ≤ a + 8192 → loadLE m' b n = loadLE m b n :=
    fun b n hl hr => loadLE_congr n (h.mono hl hr)
  have hused : load64 m' (a + usedIndexOffset) = load64 m (a + usedIndexOffset) := by
    simp only [load64, usedIndexOffset]
    exact hload _ 8 (by omega) (by omega)
  have hdesc : ∀ i : Fin virtqEntryNum, descAt m' (a + 16 * i) = descAt m (a + 16 * i) := by
    intro i
    have hlt : (i : ℕ) < 16 := i.isLt
    simp only [descAt, load64, load32, load16]
    rw [hload _ 8 (by omega) (by omega), hload _ 4 (by omega) (by omega),
      hload _ 2 (by omega) (by omega), hload _ 2 (by omega) (by omega)]
  have hring : ∀ j : Fin virtqEntryNum, load16 m' (a + availOffset + 4 + 2 * j) =
      load16 m (a + availOffset + 4 + 2 * j) := by
    intro j
    have hlt : (j : ℕ) < 16 := j.isLt
    simp only [load16, availOffset]
    exact hload _ 2 (by omega) (by omega)
  simp only [queueAt, hused, hp, hdesc, hring]
  simp only [load16, load32, availOffset, usedOffset, queueIndexOffset, lastUsedIndexOffset]
  rw [hload _ 2 (by omega) (by omega), hload _ 2 (by omega) (by omega),
    hload _ 4 (by omega) (by omega), hload _ 2 (by omega) (by omega)]

section
variable {δ α β : Type} {bus : Bus δ} {w w' : World δ}

theorem bind_ok {x : Driver δ α} {f : α → Driver δ β} {a : α} (h : x w = (.ok a, w')) :
    (x >>= f) w = f a w' := by
  change ExceptT.bindCont f (x w).1 (x w).2 = f a w'
  rw [h]
  rfl

theorem bind_error {x : Driver δ α} {f : α → Driver δ β} {msg : String}
    (h : x w = (.error msg, w')) : (x >>= f) w = (.error msg, w') := by
  change ExceptT.bindCont f (x w).1 (x w).2 = (.error msg, w')
  rw [h]
  rfl

theorem require_ok {c : Prop} [Decidable c] {msg : String} (hc : c) :
    require c msg w = (.ok (), w) := by
  rw [require, if_pos hc]

theorem require_error {c : Prop} [Decidable c] {msg : String} (hc : ¬ c) :
    require c msg w = (.error msg, w) := by
  rw [require, if_neg hc]

/-- The device answers the three checks as expected. -/
def Identifies (bus : Bus δ) (port : ℕ) (deviceId : UInt32) (d : δ) : Prop :=
  let magic := bus.read32 d (regAddr port regMagic)
  let version := bus.read32 magic.2 (regAddr port regVersion)
  let id := bus.read32 version.2 (regAddr port regDeviceId)
  magic.1 = virtioMagicNumber ∧ version.1 = 1 ∧ id.1 = deviceId

theorem virtioRegRead32_run (bus : Bus δ) (port offset : ℕ) (w : World δ) :
    virtioRegRead32 bus port offset w =
      (.ok (bus.read32 w.device (regAddr port offset)).1,
        { w with device := (bus.read32 w.device (regAddr port offset)).2 }) := rfl

theorem virtioRegRead64_run (bus : Bus δ) (port offset : ℕ) (w : World δ) :
    virtioRegRead64 bus port offset w =
      (.ok (bus.read64 w.device (regAddr port offset)).1,
        { w with device := (bus.read64 w.device (regAddr port offset)).2 }) := rfl

theorem kallocPages_run {n a : ℕ} {m : Machine} (hk : kalloc w.machine n = (a, m)) :
    kallocPages n w = (.ok a, { w with machine := m }) := by
  rw [kallocPages, hk]

theorem virtioRegWrite32_run (bus : Bus δ) (port offset : ℕ) (v : UInt32) (w : World δ) :
    virtioRegWrite32 bus port offset v w =
      (.ok (), { w with
        device := bus.write32 w.device (regAddr port offset) v
        writes := w.writes ++ [(regAddr port offset, v)] }) := rfl

theorem virtioRegFetchAndOr32_run (bus : Bus δ) (port offset : ℕ) (v : UInt32) (w : World δ) :
    ∃ d old, virtioRegFetchAndOr32 bus port offset v w =
      (.ok (), { w with device := d, writes := w.writes ++ [(regAddr port offset, old ||| v)] }) := by
  unfold virtioRegFetchAndOr32
  rw [bind_ok (virtioRegRead32_run bus port offset w), virtioRegWrite32_run]
  exact ⟨_, _, rfl⟩

theorem modifyMem_run (f : Mem → Mem) (w : World δ) :
    modifyMem f w = (.ok (), { w with machine := { w.machine with mem := f w.machine.mem } }) := rfl

theorem checkDevice_cases (bus : Bus δ) (port : ℕ) (deviceId : UInt32) (w : World δ) :
    ∃ d, (Identifies bus port deviceId w.device ∧
        checkDevice bus port deviceId w = (.ok (), { w with device := d })) ∨
      (¬ Identifies bus port deviceId w.device ∧ ∃ msg,
        checkDevice bus port deviceId w = (.error msg, { w with device := d })) := by
  unfold checkDevice Identifies
  rw [bind_ok (virtioRegRead32_run bus port regMagic w)]
  generalize bus.read32 w.device (regAddr port regMagic) = r₁
  by_cases h1 : r₁.1 = virtioMagicNumber
  · rw [bind_ok (require_ok h1), bind_ok (virtioRegRead32_run bus port regVersion _)]
    dsimp only
    generalize bus.read32 r₁.2 (regAddr port regVersion) = r₂
    by_cases h2 : r₂.1 = 1
    · rw [bind_ok (require_ok h2), bind_ok (virtioRegRead32_run bus port regDeviceId _)]
      dsimp only
      generalize bus.read32 r₂.2 (regAddr port regDeviceId) = r₃
      by_cases h3 : r₃.1 = deviceId
      · exact ⟨_, .inl ⟨⟨h1, h2, h3⟩, require_ok h3⟩⟩
      · exact ⟨_, .inr ⟨fun h => h3 h.2.2, _, require_error h3⟩⟩
    · exact ⟨_, .inr ⟨fun h => h2 h.2.1, _, bind_error (require_error h2)⟩⟩
  · exact ⟨_, .inr ⟨fun h => h1 h.1, _, bind_error (require_error h1)⟩⟩

def portWrites (port : ℕ) (regs : List (ℕ × ℕ)) : List (ℕ × UInt32) :=
  regs.map fun r => (regAddr port r.1, UInt32.ofNat r.2)

def queueRegs (a index : ℕ) : List (ℕ × ℕ) :=
  [(queueSel, index), (queueNum, virtqEntryNum), (queueAlign, 0), (queuePfn, a)]

theorem virtqInit_run {a : ℕ} {m : Machine} (bus : Bus δ) (port index : ℕ) (w : World δ)
    (hk : kalloc w.machine (pagesOf virtQueueSize) = (a, m)) (ha : a ≠ 0) :
    ∃ d, virtqInit bus port index w =
      (.ok a, ⟨{ m with mem := layoutQueue a index m.mem }, d,
        w.writes ++ portWrites port (queueRegs a index)⟩) := by
  unfold virtqInit
  rw [bind_ok (kallocPages_run hk), bind_ok (require_ok ha), bind_ok (modifyMem_run _ _)]
  iterate 4 rw [bind_ok (virtioRegWrite32_run bus port _ _ _)]
  simp only [List.append_assoc]
  exact ⟨_, rfl⟩

theorem virtqInit_panics {m : Machine} (bus : Bus δ) (port index : ℕ) (w : World δ)
    (hk : kalloc w.machine (pagesOf virtQueueSize) = (0, m)) :
    virtqInit bus port index w = (.error "virtio: out of memory", { w with machine := m }) := by
  unfold virtqInit
  rw [bind_ok (kallocPages_run hk), bind_error (require_error (by simp))]

/-- All the register writes between the checks and the capacity; the device answers the
reads of its status with `s₁`, `s₂` and `s₃`. -/
def startWrites (port a : ℕ) (s₁ s₂ s₃ : UInt32) : List (ℕ × UInt32) :=
  [(regAddr port regStatus, 0), (regAddr port regStatus, s₁ ||| statusAcknowledge),
    (regAddr port regStatus, s₂ ||| statusDriver),
    (regAddr port regStatus, s₃ ||| statusFeaturesOk)] ++
  portWrites port (queueRegs a 0) ++ [(regAddr port regStatus, statusDriverOk)]

theorem startDevice_run {a : ℕ} {m : Machine} (bus : Bus δ) (port : ℕ)
    (hk : kalloc w.machine (pagesOf virtQueueSize) = (a, m)) (ha : a ≠ 0) :
    ∃ d s₁ s₂ s₃, startDevice bus port w =
      (.ok a, ⟨{ m with mem := layoutQueue a 0 m.mem }, d,
        w.writes ++ startWrites port a s₁ s₂ s₃⟩) := by
  unfold startDevice
  rw [bind_ok (virtioRegWrite32_run bus port regStatus 0 w)]
  obtain ⟨d₁, s₁, h₁⟩ := virtioRegFetchAndOr32_run bus port regStatus statusAcknowledge _
  obtain ⟨d₂, s₂, h₂⟩ := virtioRegFetchAndOr32_run bus port regStatus statusDriver _
  obtain ⟨d₃, s₃, h₃⟩ := virtioRegFetchAndOr32_run bus port regStatus statusFeaturesOk _
  rw [bind_ok h₁, bind_ok h₂, bind_ok h₃]
  obtain ⟨d₄, hq⟩ := virtqInit_run bus port 0 ⟨w.machine, d₃, _⟩ hk ha
  rw [bind_ok hq, bind_ok (virtioRegWrite32_run bus port regStatus statusDriverOk _)]
  refine ⟨bus.write32 d₄ (regAddr port regStatus) statusDriverOk, s₁, s₂, s₃, ?_⟩
  simp only [startWrites, List.append_assoc]
  rfl

theorem startDevice_panics {m : Machine} (bus : Bus δ) (port : ℕ)
    (hk : kalloc w.machine (pagesOf virtQueueSize) = (0, m)) :
    ∃ d writes, startDevice bus port w = (.error "virtio: out of memory", ⟨m, d, writes⟩) := by
  unfold startDevice
  rw [bind_ok (virtioRegWrite32_run bus port regStatus 0 w)]
  obtain ⟨d₁, s₁, h₁⟩ := virtioRegFetchAndOr32_run bus port regStatus statusAcknowledge _
  obtain ⟨d₂, s₂, h₂⟩ := virtioRegFetchAndOr32_run bus port regStatus statusDriver _
  obtain ⟨d₃, s₃, h₃⟩ := virtioRegFetchAndOr32_run bus port regStatus statusFeaturesOk _
  rw [bind_ok h₁, bind_ok h₂, bind_ok h₃]
  rw [bind_error (virtqInit_panics bus port 0 ⟨w.machine, d₃, _⟩ hk)]
  exact ⟨_, _, rfl⟩

end

/-- The blocks the driver keeps: one page for requests, two for the queue. -/
def driverBlocks (blk : BlkDevice) : List Block := [⟨blk.reqPaddr, 0⟩, ⟨blk.requestVq, 1⟩]

/-- What a successful `virtio_blk_init` leaves. The queue in memory is that of the queue
model, what others hold is as before, and unless the device claims 2^55 sectors the state is
one the disk driver starts in, for buffers in any memory that was in use. -/
structure Initialised {δ : Type} (bus : Bus δ) (h : Heap) (base : List Block) (g : List ℕ)
    (w : World δ) (blk : BlkDevice) (w' : World δ) : Prop where
  owned : Owned h (driverBlocks blk ++ base) ⟨w'.machine, g⟩
  pages : freePages h (driverBlocks blk ++ base) g + 3 = freePages h base g
  queue : Virtqueue.virtqInit blk.requestVq 0 zeroPages =
    some (queueAt w'.machine.mem blk.requestVq, queueRegs blk.requestVq 0)
  writes : ∃ s₁ s₂ s₃, w'.writes = w.writes ++ startWrites blkPort blk.requestVq s₁ s₂ s₃
  pfn : (UInt32.ofNat blk.requestVq).toNat = blk.requestVq
  kept : ∀ x, Held h base g x → w'.machine.mem x = w.machine.mem x
  disk : ∃ d sectors, (bus.read64 d (regAddr blkPort regConfig)).1 = sectors ∧
    blk.capacity = sectors.toNat * 512 % 2 ^ 64 ∧
    (sectors.toNat < 2 ^ 55 → ∃ cfg : DiskDriver.Config, cfg.kallocAddr = blk.reqPaddr ∧
      cfg.sectors = sectors.toNat ∧
      (∀ d, DiskDriver.Reachable cfg d
        (DiskDriver.initial (queueAt w'.machine.mem blk.requestVq) w'.machine.mem d)) ∧
      ∀ c, (∀ x, c.buf ≤ x → x < c.buf + 512 → Held h base g x) → DiskDriver.BufferApart cfg c)

section
variable {δ : Type} {h : Heap} {base : List Block} {g : List ℕ} {w : World δ}

structure TwoBlocks (h : Heap) (base : List Block) (g : List ℕ) (m m' : Machine) (vq req : ℕ) :
    Prop where
  owned : Owned h (⟨req, 0⟩ :: ⟨vq, 1⟩ :: base) ⟨m', g⟩
  pages : freePages h (⟨req, 0⟩ :: ⟨vq, 1⟩ :: base) g + 3 = freePages h base g
  vq_inside : h.heapStart ≤ vq ∧ vq + 8192 ≤ h.heapEnd
  req_inside : h.heapStart ≤ req ∧ req + 4096 ≤ h.heapEnd
  req_unheld : ∀ x, InPage req x → ¬ Held h base g x
  kept : ∀ x, Held h base g x → m'.mem x = m.mem x
  queue : Virtqueue.virtqInit vq 0 zeroPages = some (queueAt m'.mem vq, queueRegs vq 0)

theorem layoutQueue_owned {m m₁ : Machine} {vq : ℕ} (ho : Owned h base ⟨m, g⟩)
    (h₁ : kalloc m 2 = (vq, m₁)) (hvq : vq ≠ 0) :
    Owned h (⟨vq, 1⟩ :: base) ⟨{ m₁ with mem := layoutQueue vq 0 m₁.mem }, g⟩ := by
  have b₁ := kalloc_block (n := 2) ho (by rw [h₁]; exact hvq)
  rw [h₁] at b₁
  apply owned_write b₁.owned
  intro x hx
  apply layoutQueue_outside
  have hno := coverage_eq_zero.mp hx ⟨vq, 1⟩ List.mem_cons_self
  simp only [Block.Covers, blockSize] at hno
  simp only [queueIndexOffset, usedIndexOffset]
  omega

theorem twoBlocks_of_kalloc {m m₁ m₂ : Machine} {vq req : ℕ} (ho : Owned h base ⟨m, g⟩)
    (h₁ : kalloc m 2 = (vq, m₁)) (hvq : vq ≠ 0)
    (h₂ : kalloc { m₁ with mem := layoutQueue vq 0 m₁.mem } 1 = (req, m₂)) (hreq : req ≠ 0) :
    TwoBlocks h base g m m₂ vq req := by
  have horder2 : orderForPages 2 = 1 := by decide
  have horder1 : orderForPages 1 = 0 := by decide
  have hsize2 : blockSize 12 1 = 8192 := rfl
  have hsize1 : blockSize 12 0 = 4096 := rfl
  have hend := heap_end_le h
  have hlt := h.end_lt
  have b₁ := kalloc_block (n := 2) ho (by rw [h₁]; exact hvq)
  rw [h₁] at b₁
  obtain ⟨hlo₁, hhi₁⟩ := b₁.inside
  have hunheld := b₁.unheld
  rw [horder2] at hhi₁ hunheld
  dsimp only at hlo₁ hhi₁ hunheld
  rw [hsize2] at hhi₁
  have b₂ := kalloc_block (n := 1) (layoutQueue_owned ho h₁ hvq) (by rw [h₂]; exact hreq)
  rw [h₂] at b₂
  obtain ⟨hlo₂, hhi₂⟩ := b₂.inside
  have hreqOwned := b₂.owned
  have hreqUnheld := b₂.unheld
  rw [horder1] at hhi₂ hreqOwned hreqUnheld
  dsimp only at hlo₂ hhi₂ hreqUnheld
  rw [hsize1] at hhi₂
  have hwiden : ∀ x, Held h base g x → Held h (⟨vq, 1⟩ :: base) g x := by
    rintro x (hx | hx)
    · exact .inl hx
    · apply Or.inr
      simp only [cover, coverage_append, coverage_cons] at hx ⊢
      omega
  have hqueue : AgreeOn (layoutQueue vq 0 m₁.mem) m₂.mem vq 8192 := by
    intro x hl hr
    apply b₂.kept
    apply Or.inr
    exact coverage_pos.mpr ⟨⟨vq, 1⟩, by simp, hl, by rw [hsize2]; exact hr⟩
  have hzero : ∀ x, vq ≤ x → x < vq + 8192 → m₁.mem x = 0 := b₁.zeroed
  constructor
  · exact hreqOwned
  · have hone := freePages_block hreqOwned
    have htwo := freePages_block (layoutQueue_owned ho h₁ hvq)
    dsimp only at hone htwo
    omega
  · omega
  · omega
  · intro x hx hheld
    exact hreqUnheld x ⟨hx.1, by rw [hsize1]; exact hx.2⟩ (hwiden x hheld)
  · intro x hx
    rw [b₂.kept x (hwiden x hx)]
    refine (layoutQueue_outside _ _ _ ?_).trans (b₁.kept x hx)
    have hno := mt (hunheld x) (not_not_intro hx)
    simp only [Block.Covers, hsize2] at hno
    simp only [queueIndexOffset, usedIndexOffset]
    omega
  · rw [queueAt_congr hqueue (layoutQueue_usedIndex _ _ (by omega)),
      queueAt_layoutQueue (by omega) (by decide) hzero]
    rw [Virtqueue.virtqInit, if_neg hvq]
    rfl

theorem virtioBlkInit_served {bus : Bus δ} {d : δ} {m₁ m₂ : Machine} {vq req : ℕ}
    (hc : checkDevice bus blkPort virtioDeviceBlk w = (.ok (), { w with device := d }))
    (h₁ : kalloc w.machine 2 = (vq, m₁)) (hvq : vq ≠ 0)
    (h₂ : kalloc { m₁ with mem := layoutQueue vq 0 m₁.mem } 1 = (req, m₂)) :
    ∃ d sectors d' s₁ s₂ s₃, (bus.read64 d (regAddr blkPort regConfig)).1 = sectors ∧
      virtioBlkInit bus w =
        (if req % 2 ^ 32 ≠ 0 then .ok ⟨vq, req % 2 ^ 32, sectors.toNat * 512 % 2 ^ 64⟩
          else .error "virtio-blk: out of memory",
          ⟨m₂, d', w.writes ++ startWrites blkPort vq s₁ s₂ s₃⟩) := by
  obtain ⟨d', s₁, s₂, s₃, hs⟩ :=
    startDevice_run (w := { w with device := d }) bus blkPort h₁ hvq
  unfold virtioBlkInit
  rw [bind_ok hc, bind_ok hs, bind_ok (virtioRegRead64_run bus blkPort regConfig _),
    bind_ok (kallocPages_run (n := pagesOf (UInt64.ofNat blkReqSize)) h₂)]
  refine ⟨d', (bus.read64 d' (regAddr blkPort regConfig)).1,
    (bus.read64 d' (regAddr blkPort regConfig)).2, s₁, s₂, s₃, rfl, ?_⟩
  by_cases hreq : req % 2 ^ 32 ≠ 0
  · rw [bind_ok (require_ok hreq), if_pos hreq]
    rfl
  · rw [bind_error (require_error hreq), if_neg hreq]

theorem TwoBlocks.initialised {bus : Bus δ} {m : Machine} {vq req : ℕ} {d d₀ : δ}
    {sectors : UInt64} {s₁ s₂ s₃ : UInt32} (hend : h.heapEnd ≤ 2 ^ 32)
    (hsectors : (bus.read64 d₀ (regAddr blkPort regConfig)).1 = sectors)
    (ht : TwoBlocks h base g w.machine m vq req) :
    Initialised bus h base g w ⟨vq, req % 2 ^ 32, sectors.toNat * 512 % 2 ^ 64⟩
      ⟨m, d, w.writes ++ startWrites blkPort vq s₁ s₂ s₃⟩ := by
  have hvq := ht.vq_inside
  have hreq := ht.req_inside
  have hmod : req % 2 ^ 32 = req := Nat.mod_eq_of_lt (by omega)
  constructor
  · rw [hmod]
    exact ht.owned
  · rw [hmod]
    exact ht.pages
  · exact ht.queue
  · exact ⟨s₁, s₂, s₃, rfl⟩
  · change vq % 2 ^ 32 = vq
    exact Nat.mod_eq_of_lt (by omega)
  · exact ht.kept
  · refine ⟨d₀, sectors, hsectors, rfl, fun hlt => ?_⟩
    have hsize : req + blkReqSize ≤ 2 ^ 32 := by
      unfold blkReqSize
      omega
    refine ⟨⟨req, sectors.toNat, hsize, hlt⟩, hmod.symm, rfl, fun d => .init m.mem ht.queue, ?_⟩
    intro c hc
    by_contra hno
    simp only [DiskDriver.BufferApart, DescriptorChains.Apart, DescriptorChains.sectorSize,
      blkReqSize] at hno
    have hpage : pageSize = 4096 := rfl
    exact ht.req_unheld (max c.buf req) ⟨le_max_right _ _, by omega⟩ (hc _ (le_max_left _ _) (by omega))

theorem request_unserved {m m₁ m₂ : Machine} {vq : ℕ} (ho : Owned h base ⟨m, g⟩)
    (h₁ : kalloc m 2 = (vq, m₁)) (hvq : vq ≠ 0)
    (h₂ : kalloc { m₁ with mem := layoutQueue vq 0 m₁.mem } 1 = (0, m₂)) :
    freePages h base g = 2 := by
  have ho₂ := layoutQueue_owned ho h₁ hvq
  have hnone := (kallocPage_serves ho₂).mp ((kallocPage_page _).trans (congrArg Prod.fst h₂))
  have hcount := freePages_block ho₂
  dsimp only at hnone hcount
  omega

/-- The ways `virtio_blk_init` can go. -/
theorem virtioBlkInit_cases (bus : Bus δ) (hend : h.heapEnd ≤ 2 ^ 32)
    (ho : Owned h base ⟨w.machine, g⟩) :
    (Identifies bus blkPort virtioDeviceBlk w.device ∧
      (∃ k, 1 ≤ k ∧ k ≤ maxOrder ∧ w.machine.freeLists k ≠ 0) ∧
      ∃ blk w', virtioBlkInit bus w = (.ok blk, w') ∧ Initialised bus h base g w blk w') ∨
    (¬ Identifies bus blkPort virtioDeviceBlk w.device ∧
      ∃ msg d, virtioBlkInit bus w = (.error msg, { w with device := d })) ∨
    (Identifies bus blkPort virtioDeviceBlk w.device ∧
      (¬ ∃ k, 1 ≤ k ∧ k ≤ maxOrder ∧ w.machine.freeLists k ≠ 0) ∧
      ∃ w', virtioBlkInit bus w = (.error "virtio: out of memory", w')) ∨
    (Identifies bus blkPort virtioDeviceBlk w.device ∧ freePages h base g = 2 ∧
      ∃ w', virtioBlkInit bus w = (.error "virtio-blk: out of memory", w')) := by
  obtain ⟨d, ⟨hid, hc⟩ | ⟨hid, msg, hc⟩⟩ := checkDevice_cases bus blkPort virtioDeviceBlk w
  · cases h₁ : kalloc w.machine 2 with
    | mk vq m₁ =>
      by_cases hvq : vq = 0
      · subst hvq
        obtain ⟨d', writes, hs⟩ :=
          startDevice_panics (w := { w with device := d }) bus blkPort h₁
        refine .inr (.inr (.inl ⟨hid, fun hserved => ?_, ⟨m₁, d', writes⟩, ?_⟩))
        · exact (kalloc_served_iff ho 2).mpr hserved (congrArg Prod.fst h₁)
        · unfold virtioBlkInit
          rw [bind_ok hc, bind_error hs]
      · cases h₂ : kalloc { m₁ with mem := layoutQueue vq 0 m₁.mem } 1 with
        | mk req m₂ =>
          obtain ⟨d₀, sectors, d', s₁, s₂, s₃, hsec, hrun⟩ := virtioBlkInit_served hc h₁ hvq h₂
          by_cases hreq : req = 0
          · subst hreq
            exact .inr (.inr (.inr ⟨hid, request_unserved ho h₁ hvq h₂, _, hrun⟩))
          · have ht := twoBlocks_of_kalloc ho h₁ hvq h₂ hreq
            have hlt := ht.req_inside
            have hmod : req % 2 ^ 32 ≠ 0 := by
              rw [Nat.mod_eq_of_lt (by omega)]
              exact hreq
            rw [if_pos hmod] at hrun
            have hserved := (kalloc_served_iff ho 2).mp (by rw [h₁]; exact hvq)
            exact .inl ⟨hid, hserved, _, _, hrun, ht.initialised hend hsec⟩
  · exact .inr (.inl ⟨hid, msg, d, bind_error hc⟩)

/-- Exactly a device that identifies itself, a block of two pages and a third free page are
needed, and a panic over the device has changed nothing. -/
theorem blk_init_iff (bus : Bus δ) (h : Heap) (hend : h.heapEnd ≤ 2 ^ 32)
    (base : List Block) (g : List ℕ) (w : World δ) (ho : Owned h base ⟨w.machine, g⟩) :
    ((∃ blk w', virtioBlkInit bus w = (.ok blk, w')) ↔
      Identifies bus blkPort virtioDeviceBlk w.device ∧
        (∃ k, 1 ≤ k ∧ k ≤ maxOrder ∧ w.machine.freeLists k ≠ 0) ∧ 3 ≤ freePages h base g) ∧
    (∀ blk w', virtioBlkInit bus w = (.ok blk, w') → Initialised bus h base g w blk w') ∧
    ∀ msg w', virtioBlkInit bus w = (.error msg, w') →
      ¬ Identifies bus blkPort virtioDeviceBlk w.device →
      w'.machine = w.machine ∧ w'.writes = w.writes := by
  have hfails : ∀ {msg w'}, virtioBlkInit bus w = (.error msg, w') →
      ¬ ∃ blk w', virtioBlkInit bus w = (.ok blk, w') := by
    rintro msg w' he ⟨blk, w'', hok⟩
    rw [he] at hok
    cases hok
  rcases virtioBlkInit_cases bus hend ho with
    ⟨hid, hk, blk, w', hrun, hi⟩ | ⟨hid, msg, d, hrun⟩ | ⟨hid, hno, w', hrun⟩ | ⟨hid, htwo, w', hrun⟩
  · have hpages := hi.pages
    refine ⟨iff_of_true ⟨blk, w', hrun⟩ ⟨hid, hk, by omega⟩, ?_, ?_⟩
    · intro blk' w'' he
      rw [hrun] at he
      cases he
      exact hi
    · exact fun _ _ _ hn => absurd hid hn
  · refine ⟨iff_of_false (hfails hrun) fun hc => hid hc.1, ?_, ?_⟩
    · exact fun blk w' he => absurd ⟨blk, w', he⟩ (hfails hrun)
    · intro msg' w' he _
      rw [hrun] at he
      cases he
      exact ⟨rfl, rfl⟩
  · refine ⟨iff_of_false (hfails hrun) fun hc => hno hc.2.1, ?_, ?_⟩
    · exact fun blk w' he => absurd ⟨blk, w', he⟩ (hfails hrun)
    · exact fun _ _ _ hn => absurd hid hn
  · refine ⟨iff_of_false (hfails hrun) fun hc => by omega, ?_, ?_⟩
    · exact fun blk w' he => absurd ⟨blk, w', he⟩ (hfails hrun)
    · exact fun _ _ _ hn => absurd hid hn

def sampleBus : Bus Unit where
  read32 _ a :=
    (if a = regAddr 0 regMagic then virtioMagicNumber
      else if a = regAddr 0 regVersion then 1
      else if a = regAddr 0 regDeviceId then virtioDeviceBlk
      else 0, ())
  read64 _ _ := (16, ())
  write32 d _ _ := d

theorem sampleBus_identifies : Identifies sampleBus blkPort virtioDeviceBlk () := by
  refine ⟨?_, ?_, ?_⟩ <;> decide

theorem blk_init_after_boot : ∃ blk w',
    virtioBlkInit sampleBus ⟨(boot (heapOf sampleLayout) fun _ => 0).machine, (), []⟩ =
      (.ok blk, w') ∧
    Initialised sampleBus (heapOf sampleLayout) [] []
      ⟨(boot (heapOf sampleLayout) fun _ => 0).machine, (), []⟩ blk w' := by
  have ho := owned_boot (heapOf sampleLayout) fun _ => 0
  have hfree : freePages (heapOf sampleLayout) [] [] = 32768 := by
    rw [freePages_nil, heapOf_totalPages]
  obtain ⟨hiff, hinit, -⟩ := blk_init_iff sampleBus (heapOf sampleLayout) (by decide) [] []
    ⟨(boot (heapOf sampleLayout) fun _ => 0).machine, (), []⟩ ho
  have hserved := pair_served ho (by rw [hfree, heapOf_totalPages]; decide)
  obtain ⟨blk, w', hrun⟩ := hiff.mpr ⟨sampleBus_identifies, hserved, by rw [hfree]; decide⟩
  exact ⟨blk, w', hrun, hinit blk w' hrun⟩

end

end DeviceInit
