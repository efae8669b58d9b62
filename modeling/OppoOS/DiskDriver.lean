import OppoOS.BuddyAllocator
import OppoOS.DescriptorChains
import OppoOS.KeyedStore

/-!
# The disk driver

`drivers/virtio/virtio_blkio.c`: `read_write_disk` with its one request block and its one
queue, and a block device on the other side. The steps of the call, those inside
`virtq_kick` included, and the steps of the device come in any order.
-/
namespace DiskDriver

open ByteMemory RingBuffer Virtqueue DescriptorChains KeyedStore Function
open BuddyAllocator (memcpy memcpy_apply memcpy_outside)

abbrev Sector := Fin sectorSize → UInt8

def virtioBlkTIn : ℕ := 0
def virtioBlkTOut : ℕ := 1

def sectorOffset : ℕ := 8

/-- What `virtio_blk_init` finds: the address of the request block, which the linker script
puts below 4 GiB, and the number of sectors the device reports. -/
structure Config where
  kallocAddr : ℕ
  sectors : ℕ
  kallocAddr_le : kallocAddr + blkReqSize ≤ 2 ^ 32
  sectors_lt : sectors < 2 ^ 55

/-- `(uint32_t) kalloc(...)`. -/
def Config.blkReqPaddr (cfg : Config) : ℕ := cfg.kallocAddr % 2 ^ 32

/-- `virtio_reg_read64(...) * SECTOR_SIZE`. -/
def Config.blkCapacity (cfg : Config) : ℕ := cfg.sectors * sectorSize % 2 ^ 64

structure Call where
  buf : ℕ
  sector : ℕ
  isWrite : ℤ
  deriving DecidableEq, Repr

def buildRequest (cfg : Config) (c : Call) (m : Mem) : Mem :=
  let m := store64 m (cfg.blkReqPaddr + sectorOffset) c.sector
  let m := store32 m cfg.blkReqPaddr (if c.isWrite ≠ 0 then virtioBlkTOut else virtioBlkTIn)
  if c.isWrite ≠ 0 then memcpy m (cfg.blkReqPaddr + dataOffset) c.buf sectorSize else m

/-- What follows the wait: a status other than 0 ends the call with a warning. -/
def finishRequest (cfg : Config) (c : Call) (m : Mem) : Mem :=
  if m (cfg.blkReqPaddr + statusOffset) ≠ 0 then m
  else if c.isWrite ≠ 0 then m
  else memcpy m c.buf (cfg.blkReqPaddr + dataOffset) sectorSize

def readSector (m : Mem) (a : ℕ) : Sector := fun i => m (a + i)

def writeSector (m : Mem) (a : ℕ) (v : Sector) : Mem :=
  fun x => if h : a ≤ x ∧ x < a + sectorSize then v ⟨x - a, by omega⟩ else m x

/-- A request that succeeds: the sector to the data, or the data to the sector. -/
def transferData (m : Mem) (disk : ℕ → Sector) (header data : ℕ) : Mem × (ℕ → Sector) :=
  let sector := load64 m (header + sectorOffset)
  if load32 m header = virtioBlkTIn then (writeSector m data (disk sector), disk)
  else (m, update disk sector (readSector m data))

/-- How far a call is. It carries the memory it began with. -/
inductive Phase where
  | idle
  | submitted (c : Call) (before : Mem)
  | kicked (c : Call) (before : Mem)
  | panicked (c : Call)

structure Entry where
  call : Call
  ok : Bool
  before : Mem
  after : Mem

def returned (cfg : Config) (c : Call) (before m : Mem) : Entry :=
  ⟨c, decide (m (cfg.blkReqPaddr + statusOffset) = 0), before, finishRequest cfg c m⟩

/-- The queue is held apart from the memory the buffers are in, which they do not touch. -/
structure State where
  mem : Mem
  queue : Virtqueue.State
  phase : Phase
  disk : ℕ → Sector
  history : List Entry

def initial (vq : VirtQueue) (mem : Mem) (disk : ℕ → Sector) : State :=
  ⟨mem, Virtqueue.initial vq, .idle, disk, []⟩

def BufferApart (cfg : Config) (c : Call) : Prop :=
  Apart ⟨c.buf, sectorSize⟩ ⟨cfg.kallocAddr, blkReqSize⟩

def NextChain (q : Virtqueue.State) (i j k : Fin virtqEntryNum) : Prop :=
  q.deviceIdx ≠ q.vq.avail.idx ∧
    Chain q.vq.buffers (q.vq.avail.ring (slot virtqEntryNum q.deviceIdx)) [i, j, k]

def takeEntry (q : Virtqueue.State) : Virtqueue.State :=
  { q with
    deviceIdx := inc16 q.deviceIdx
    received := q.received ++ [q.vq.avail.ring (slot virtqEntryNum q.deviceIdx)] }

/-- Between calls the memory outside the request block may change in any way. A device that
fails a request only writes its status. -/
inductive Step (cfg : Config) : State → State → Prop where
  | client (s m) : s.phase = .idle → AgreeOn s.mem m cfg.kallocAddr blkReqSize →
      Step cfg s { s with mem := m }
  | refuse (s c) : s.phase = .idle → cfg.blkCapacity / sectorSize ≤ c.sector →
      Step cfg s { s with phase := .panicked c }
  | submit (s c) : s.phase = .idle → c.sector < cfg.blkCapacity / sectorSize →
      BufferApart cfg c →
      Step cfg s { s with
        mem := buildRequest cfg c s.mem
        queue := { s.queue with vq := { s.queue.vq with
          buffers := diskChain s.queue.vq.buffers cfg.blkReqPaddr c.isWrite } }
        phase := .submitted c s.mem }
  | kick (s c m) : s.phase = .submitted c m →
      Step cfg s { s with
        queue := { s.queue with vq := writeRing s.queue.vq 0, phase := .ringWritten 0 }
        phase := .kicked c m }
  | publish (s c m d) : s.phase = .kicked c m → s.queue.phase = .ringWritten d →
      Step cfg s { s with
        queue := { s.queue with
          vq := bumpAvail s.queue.vq, phase := .published, kicked := s.queue.kicked ++ [d] } }
  | notify (s c m) : s.phase = .kicked c m → s.queue.phase = .published →
      Step cfg s { s with
        queue := { s.queue with
          phase := .notified
          notifications := s.queue.notifications ++ [(queueNotify, s.queue.vq.queueIndex)] } }
  | count (s c m) : s.phase = .kicked c m → s.queue.phase = .notified →
      Step cfg s { s with
        queue := { s.queue with vq := bumpLastUsed s.queue.vq, phase := .idle } }
  | serve (s i j k) : NextChain s.queue i j k →
      (load32 s.mem (s.queue.vq.buffers i).addr = virtioBlkTIn ∨
        load32 s.mem (s.queue.vq.buffers i).addr = virtioBlkTOut) →
      Step cfg s { s with
        mem := store8 (transferData s.mem s.disk (s.queue.vq.buffers i).addr
          (s.queue.vq.buffers j).addr).1 (s.queue.vq.buffers k).addr 0
        disk := (transferData s.mem s.disk (s.queue.vq.buffers i).addr
          (s.queue.vq.buffers j).addr).2
        queue := takeEntry s.queue }
  | fail (s i j k status) : NextChain s.queue i j k → status ≠ 0 →
      Step cfg s { s with
        mem := store8 s.mem (s.queue.vq.buffers k).addr status
        queue := takeEntry s.queue }
  | finish (s) : s.queue.completed < s.queue.received.length →
      Step cfg s { s with
        queue := { s.queue with
          vq := { s.queue.vq with usedIdx := inc16 s.queue.vq.usedIdx }
          completed := s.queue.completed + 1 } }
  | return (s c m) : s.phase = .kicked c m → s.queue.phase = .idle →
      virtqIsBusy s.queue.vq = 0 →
      Step cfg s { s with
        mem := finishRequest cfg c s.mem
        phase := .idle
        history := s.history ++ [returned cfg c m s.mem] }

inductive Reachable (cfg : Config) (disk : ℕ → Sector) : State → Prop where
  | init {p vq regs} (mem) : virtqInit p 0 zeroPages = some (vq, regs) →
      Reachable cfg disk (initial vq mem disk)
  | step {s t} : Reachable cfg disk s → Step cfg s t → Reachable cfg disk t

theorem blkReqPaddr_eq (cfg : Config) : cfg.blkReqPaddr = cfg.kallocAddr := by
  apply Nat.mod_eq_of_lt
  have h := cfg.kallocAddr_le
  unfold blkReqSize at h
  omega

theorem blkCapacity_div (cfg : Config) : cfg.blkCapacity / sectorSize = cfg.sectors := by
  have h := cfg.sectors_lt
  unfold Config.blkCapacity sectorSize
  omega

def Outside (cfg : Config) (x : ℕ) : Prop :=
  x < cfg.kallocAddr ∨ cfg.kallocAddr + blkReqSize ≤ x

theorem BufferApart.outside {cfg : Config} {c : Call} (h : BufferApart cfg c) (i : Fin sectorSize) :
    Outside cfg (c.buf + i) := by
  have hi := i.isLt
  simp only [BufferApart, Apart, Outside] at h ⊢
  omega

structure Built (cfg : Config) (c : Call) (before m : Mem) : Prop where
  type : load32 m cfg.kallocAddr = if c.isWrite ≠ 0 then virtioBlkTOut else virtioBlkTIn
  sector : load64 m (cfg.kallocAddr + sectorOffset) = c.sector
  data : c.isWrite ≠ 0 → readSector m (cfg.kallocAddr + dataOffset) = readSector before c.buf

theorem header_outside (cfg : Config) (m : Mem) (sector type : ℕ) {x : ℕ}
    (hx : x < cfg.kallocAddr ∨ cfg.kallocAddr + dataOffset ≤ x) :
    store32 (store64 m (cfg.kallocAddr + sectorOffset) sector) cfg.kallocAddr type x = m x := by
  simp only [dataOffset] at hx
  rw [store32_outside _ _ _ _ (by omega),
    store64_outside _ _ _ _ (by simp only [sectorOffset]; omega)]

theorem buildRequest_outside {cfg : Config} {c : Call} {m : Mem} {x : ℕ} (hx : Outside cfg x) :
    buildRequest cfg c m x = m x := by
  simp only [buildRequest, blkReqPaddr_eq]
  generalize (if c.isWrite ≠ 0 then virtioBlkTOut else virtioBlkTIn) = type
  simp only [Outside, blkReqSize] at hx
  have hheader := header_outside cfg m c.sector type (x := x) (by simp only [dataOffset]; omega)
  split
  · rw [memcpy_outside, hheader]
    simp only [dataOffset, sectorSize]
    omega
  · exact hheader

theorem readSector_apply (m : Mem) (a : ℕ) (i : Fin sectorSize) :
    readSector m a i = m (a + i) := rfl

theorem readSector_memcpy {m : Mem} {dest src : ℕ}
    (h : Apart ⟨src, sectorSize⟩ ⟨dest, sectorSize⟩) :
    readSector (memcpy m dest src sectorSize) dest = readSector m src := by
  funext i
  have hi := i.isLt
  simp only [Apart] at h
  rw [readSector_apply, readSector_apply, memcpy_apply _ _ _ _ _ (by omega),
    if_pos (by omega), Nat.add_sub_cancel_left]

theorem readSector_congr {m m' : Mem} {a : ℕ} (h : ∀ i : Fin sectorSize, m' (a + i) = m (a + i)) :
    readSector m' a = readSector m a := funext h

theorem buildRequest_built {cfg : Config} {c : Call} {m : Mem} (hb : BufferApart cfg c)
    (hs : c.sector < 2 ^ 64) : Built cfg c m (buildRequest cfg c m) := by
  simp only [buildRequest, blkReqPaddr_eq]
  generalize hty : (if c.isWrite ≠ 0 then virtioBlkTOut else virtioBlkTIn) = type
  have hlt : type < 2 ^ 32 := by
    rw [← hty]
    split <;> decide
  have hheader := fun x => header_outside cfg m c.sector type (x := x)
  generalize hu : store32 (store64 m (cfg.kallocAddr + sectorOffset) c.sector) cfg.kallocAddr
    type = u at hheader ⊢
  have htype : load32 u cfg.kallocAddr = type := by
    rw [← hu, load32_store32_same, Nat.mod_eq_of_lt hlt]
  have hsector : load64 u (cfg.kallocAddr + sectorOffset) = c.sector := by
    have hagree : AgreeOn (store64 m (cfg.kallocAddr + sectorOffset) c.sector) u
        (cfg.kallocAddr + sectorOffset) 8 := by
      intro x hl _
      simp only [sectorOffset] at hl
      rw [← hu]
      exact store32_outside _ _ _ _ (.inr (by omega))
    rw [load64_congr hagree, load64_store64_same, Nat.mod_eq_of_lt hs]
  split
  · -- the copy begins behind the header
    have hkeep : AgreeOn u (memcpy u (cfg.kallocAddr + dataOffset) c.buf sectorSize)
        cfg.kallocAddr dataOffset := by
      intro x _ hr
      exact memcpy_outside _ _ _ _ _ (.inl hr)
    simp only [BufferApart, Apart, blkReqSize] at hb
    constructor
    · rw [load32_congr (hkeep.mono le_rfl (by simp [dataOffset])), htype, hty]
    · rw [load64_congr (hkeep.mono (Nat.le_add_right _ _) (by simp [sectorOffset, dataOffset])),
        hsector]
    · intro _
      rw [readSector_memcpy (by simp only [Apart, dataOffset, sectorSize] at *; omega)]
      refine readSector_congr fun i => hheader _ ?_
      have hi := i.isLt
      simp only [sectorSize, dataOffset] at *
      omega
  · next hw =>
    constructor
    · rw [htype, hty]
    · exact hsector
    · intro h
      exact absurd h hw

structure Answered (cfg : Config) (c : Call) (before m : Mem) (contents disk : ℕ → Sector) :
    Prop where
  failed : m (cfg.kallocAddr + statusOffset) ≠ 0 → disk = contents
  written : m (cfg.kallocAddr + statusOffset) = 0 → c.isWrite ≠ 0 →
    disk = update contents c.sector (readSector before c.buf)
  read : m (cfg.kallocAddr + statusOffset) = 0 → c.isWrite = 0 →
    disk = contents ∧ readSector m (cfg.kallocAddr + dataOffset) = contents c.sector

theorem readSector_writeSector (m : Mem) (a : ℕ) (v : Sector) :
    readSector (writeSector m a v) a = v := by
  funext i
  have hi := i.isLt
  unfold readSector writeSector
  rw [dif_pos (by omega)]
  congr 1
  exact Fin.ext (Nat.add_sub_cancel_left _ _)

theorem writeSector_outside {m : Mem} {a x : ℕ} {v : Sector} (h : x < a ∨ a + sectorSize ≤ x) :
    writeSector m a v x = m x := dif_neg (by omega)

theorem transferData_outside {m : Mem} {disk : ℕ → Sector} {header data x : ℕ}
    (h : x < data ∨ data + sectorSize ≤ x) : (transferData m disk header data).1 x = m x := by
  simp only [transferData]
  split
  · exact writeSector_outside h
  · rfl

theorem answered_serve {cfg : Config} {c : Call} {before m : Mem} {disk : ℕ → Sector}
    (h : Built cfg c before m) :
    Answered cfg c before
      (store8 (transferData m disk cfg.kallocAddr (cfg.kallocAddr + dataOffset)).1
        (cfg.kallocAddr + statusOffset) 0)
      disk (transferData m disk cfg.kallocAddr (cfg.kallocAddr + dataOffset)).2 := by
  have hstatus (m : Mem) (i : Fin sectorSize) :
      store8 m (cfg.kallocAddr + statusOffset) 0 (cfg.kallocAddr + dataOffset + i) =
        m (cfg.kallocAddr + dataOffset + i) := by
    have hi : (i : ℕ) < 512 := i.isLt
    exact if_neg (by simp only [dataOffset, statusOffset]; omega)
  constructor
  · intro h
    exact absurd (if_pos rfl) h
  · intro _ hw
    simp only [transferData, h.type, h.sector, if_pos hw, h.data hw]
    rfl
  · intro _ hw
    simp only [transferData, h.type, h.sector, if_neg (not_not.mpr hw)]
    exact ⟨rfl, (readSector_congr (hstatus _)).trans (readSector_writeSector _ _ _)⟩

theorem answered_fail {cfg : Config} {c : Call} {before m : Mem} {disk : ℕ → Sector}
    {status : UInt8} (h : status ≠ 0) :
    Answered cfg c before (store8 m (cfg.kallocAddr + statusOffset) status) disk disk := by
  have hs : store8 m (cfg.kallocAddr + statusOffset) status (cfg.kallocAddr + statusOffset) ≠ 0 :=
    ne_of_eq_of_ne (if_pos rfl) h
  exact ⟨fun _ => rfl, fun h => absurd h hs, fun h => absurd h hs⟩

/-- The call as an operation of the store: the data of a write before it, of a read after
it. -/
def Entry.operation (e : Entry) : Operation ℕ Sector :=
  if e.call.isWrite ≠ 0 then .write e.call.sector (readSector e.before e.call.buf) e.ok
  else .read e.call.sector (if e.ok then some (readSector e.after e.call.buf) else none)

/-- Outside the request block only a successful read changes memory, in its buffer. -/
structure Entry.Framed (cfg : Config) (e : Entry) : Prop where
  inRange : e.call.sector < cfg.sectors
  frame : ∀ x, Outside cfg x →
    (e.ok = true → e.call.isWrite = 0 → x < e.call.buf ∨ e.call.buf + sectorSize ≤ x) →
    e.after x = e.before x
  apart : BufferApart cfg e.call

theorem returned_framed {cfg : Config} {c : Call} {before m : Mem} (hr : c.sector < cfg.sectors)
    (hb : BufferApart cfg c) (hout : ∀ x, Outside cfg x → m x = before x) :
    (returned cfg c before m).Framed cfg := by
  refine ⟨hr, ?_, hb⟩
  intro x hx hbuf
  simp only [returned, decide_eq_true_eq] at hbuf ⊢
  unfold finishRequest
  split
  · exact hout x hx
  · next hs =>
    split
    · exact hout x hx
    · next hw =>
      rw [memcpy_outside _ _ _ _ _ (hbuf (not_not.mp hs) (not_not.mp hw))]
      exact hout x hx

theorem returned_step {cfg : Config} {c : Call} {before m : Mem} {contents disk : ℕ → Sector}
    (hb : BufferApart cfg c) (h : Answered cfg c before m contents disk) :
    KeyedStore.Step contents (returned cfg c before m).operation disk := by
  simp only [Entry.operation, returned, blkReqPaddr_eq]
  by_cases hs : m (cfg.kallocAddr + statusOffset) = 0
  · by_cases hw : c.isWrite ≠ 0
    · obtain rfl := h.written hs hw
      simp only [hs, if_pos hw]
      exact .write contents c.sector _
    · obtain ⟨rfl, hdata⟩ := h.read hs (not_not.mp hw)
      have hfinish : readSector (finishRequest cfg c m) c.buf = disk c.sector := by
        unfold finishRequest
        rw [blkReqPaddr_eq, if_neg (not_not.mpr hs), if_neg hw, readSector_memcpy, hdata]
        simp only [BufferApart, Apart, blkReqSize, dataOffset, sectorSize] at *
        omega
      simp only [hs, if_neg hw, hfinish]
      exact .read disk c.sector
  · obtain rfl := h.failed hs
    by_cases hw : c.isWrite ≠ 0
    · simp only [hs, if_pos hw]
      exact .writeFailed disk c.sector _
    · simp only [hs, if_neg hw]
      exact .readFailed disk c.sector

structure Quiet (s : State) : Prop where
  phase : s.queue.phase = .idle
  kicked : s.queue.kicked.length = s.history.length

/-- One more request than calls have returned, from the second step of `virtq_kick` on. -/
def Kicked (s : State) : Prop :=
  match s.queue.phase with
  | .ringWritten d => d = 0 ∧ s.queue.kicked.length = s.history.length
  | .idle | .published | .notified => s.queue.kicked.length = s.history.length + 1

/-- The request of call `c` lies in the block, or its answer does once the device has taken
it. -/
structure Pending (cfg : Config) (contents : ℕ → Sector) (s : State) (c : Call)
    (before : Mem) : Prop where
  inRange : c.sector < cfg.sectors
  apart : BufferApart cfg c
  chain : ∃ t, s.queue.vq.buffers = diskChain t cfg.blkReqPaddr c.isWrite
  outside : ∀ x, Outside cfg x → s.mem x = before x
  unserved : s.queue.received.length = s.history.length →
    Built cfg c before s.mem ∧ s.disk = contents
  served : s.history.length < s.queue.received.length →
    Answered cfg c before s.mem contents s.disk

def PhaseInvariant (cfg : Config) (contents : ℕ → Sector) (s : State) : Prop :=
  match s.phase with
  | .idle => Quiet s ∧ s.disk = contents
  | .panicked c => Quiet s ∧ s.disk = contents ∧ cfg.sectors ≤ c.sector
  | .submitted c before => Quiet s ∧ Pending cfg contents s c before
  | .kicked c before => Kicked s ∧ Pending cfg contents s c before

/-- `contents` is the store after the calls that have returned. -/
structure Invariant (cfg : Config) (disk contents : ℕ → Sector) (s : State) : Prop where
  queue : Virtqueue.Invariant s.queue
  heads : ∀ d ∈ s.queue.kicked, d = 0
  run : Run disk (s.history.map Entry.operation) contents
  entries : ∀ e ∈ s.history, e.Framed cfg
  completed : s.history.length ≤ s.queue.completed
  phase : PhaseInvariant cfg contents s

theorem initial_invariant {cfg : Config} {p : ℕ} {vq : VirtQueue} {regs : List (ℕ × ℕ)}
    (mem : Mem) (disk : ℕ → Sector) (h : virtqInit p 0 zeroPages = some (vq, regs)) :
    Invariant cfg disk disk (initial vq mem disk) := by
  constructor
  · exact Virtqueue.initial_invariant h
  · intro d hd
    cases hd
  · exact .nil
  · intro e he
    cases he
  · exact Nat.le_refl 0
  · exact ⟨⟨rfl, rfl⟩, rfl⟩

section

variable {cfg : Config} {disk contents : ℕ → Sector} {s : State}

theorem Invariant.idle (hi : Invariant cfg disk contents s) (h : s.phase = .idle) :
    Quiet s ∧ s.disk = contents := by
  have hp := hi.phase
  simpa only [PhaseInvariant, h] using hp

theorem Invariant.submitted (hi : Invariant cfg disk contents s) {c : Call} {m : Mem}
    (h : s.phase = .submitted c m) : Quiet s ∧ Pending cfg contents s c m := by
  have hp := hi.phase
  simpa only [PhaseInvariant, h] using hp

theorem Invariant.kicked (hi : Invariant cfg disk contents s) {c : Call} {m : Mem}
    (h : s.phase = .kicked c m) : Kicked s ∧ Pending cfg contents s c m := by
  have hp := hi.phase
  simpa only [PhaseInvariant, h] using hp

theorem Kicked.length_le (h : Kicked s) :
    s.queue.kicked.length ≤ s.history.length + 1 := by
  unfold Kicked at h
  split at h <;> omega

theorem fillThree_unique {t : Table} {cmd size data dataLen dataFlags resp respLen : ℕ}
    {i j k : Fin virtqEntryNum}
    (h : Chain (fillThree t cmd size data dataLen dataFlags resp respLen) 0 [i, j, k]) :
    i = 0 ∧ j = 1 ∧ k = 2 := by
  have he := h.unique chain_fillThree
  simpa using he

theorem Invariant.head (hi : Invariant cfg disk contents s)
    (h : s.queue.received.length < s.queue.kicked.length) :
    s.queue.vq.avail.ring (slot virtqEntryNum s.queue.deviceIdx) = 0 := by
  have hget := List.getElem?_eq_getElem h
  rw [hi.queue.next_entry hget, hi.heads _ (List.getElem_mem h)]
  rfl

theorem Invariant.next (hi : Invariant cfg disk contents s) {i j k : Fin virtqEntryNum}
    (h : NextChain s.queue i j k) :
    ∃ c m, s.phase = .kicked c m ∧ Kicked s ∧ Pending cfg contents s c m ∧
      s.queue.received.length = s.history.length ∧
      (s.queue.vq.buffers i).addr = cfg.kallocAddr ∧
      (s.queue.vq.buffers j).addr = cfg.kallocAddr + dataOffset ∧
      (s.queue.vq.buffers k).addr = cfg.kallocAddr + statusOffset := by
  obtain ⟨hne, hchain⟩ := h
  have hle := hi.queue.received_le
  have hcl := hi.queue.completed_le
  have hn := hi.completed
  have hlt : s.queue.received.length < s.queue.kicked.length :=
    lt_of_le_of_ne hle fun he => hne (hi.queue.all_taken.mpr he)
  have hquiet : ¬ Quiet s := fun hq => by
    have := hq.kicked
    omega
  have hp := hi.phase
  unfold PhaseInvariant at hp
  split at hp
  · exact absurd hp.1 hquiet
  · exact absurd hp.1 hquiet
  · exact absurd hp.1 hquiet
  · next c m hphase =>
    obtain ⟨hk, hpend⟩ := hp
    have hk' := hk.length_le
    obtain ⟨t, ht⟩ := hpend.chain
    rw [hi.head hlt, ht] at hchain
    obtain ⟨rfl, rfl, rfl⟩ := fillThree_unique hchain
    refine ⟨c, m, hphase, hk, hpend, by omega, ?_⟩
    rw [ht, diskChain, fillThree_zero, fillThree_one, fillThree_two, blkReqPaddr_eq]
    exact ⟨rfl, rfl, rfl⟩

theorem Pending.of_eq {t : State} {c : Call} {m : Mem} (hp : Pending cfg contents s c m)
    (hmem : t.mem = s.mem) (hdisk : t.disk = s.disk) (hhist : t.history = s.history)
    (hb : t.queue.vq.buffers = s.queue.vq.buffers) (hr : t.queue.received = s.queue.received) :
    Pending cfg contents t c m := by
  constructor
  · exact hp.inRange
  · exact hp.apart
  · rw [hb]
    exact hp.chain
  · rw [hmem]
    exact hp.outside
  · rw [hr, hhist, hmem, hdisk]
    exact hp.unserved
  · rw [hr, hhist, hmem, hdisk]
    exact hp.served

theorem status_outside {x : ℕ} (m : Mem) (status : UInt8) (hx : Outside cfg x) :
    store8 m (cfg.kallocAddr + statusOffset) status x = m x := by
  simp only [Outside, blkReqSize] at hx
  exact if_neg (by simp only [statusOffset]; omega)

theorem takeEntry_taken {q : Virtqueue.State} {n : ℕ} (h : q.received.length = n) :
    n < (takeEntry q).received.length := by
  simp only [takeEntry, List.length_append, List.length_singleton]
  omega

theorem Pending.answered {t : State} {c : Call} {m : Mem} (hp : Pending cfg contents s c m)
    (hb : t.queue.vq.buffers = s.queue.vq.buffers)
    (hout : ∀ x, Outside cfg x → t.mem x = s.mem x)
    (htaken : t.history.length < t.queue.received.length)
    (hans : Answered cfg c m t.mem contents t.disk) : Pending cfg contents t c m := by
  constructor
  · exact hp.inRange
  · exact hp.apart
  · rw [hb]
    exact hp.chain
  · exact fun x hx => (hout x hx).trans (hp.outside x hx)
  · intro h
    omega
  · exact fun _ => hans

theorem Quiet.of_eq {t : State} (h : Quiet s) (hq : t.queue.phase = s.queue.phase)
    (hk : t.queue.kicked = s.queue.kicked) (hhist : t.history = s.history) : Quiet t := by
  constructor
  · exact hq.trans h.phase
  · rw [hk, hhist, h.kicked]

theorem PhaseInvariant.of_eq {t : State} (hp : PhaseInvariant cfg contents s)
    (hphase : t.phase = s.phase) (hq : t.queue.phase = s.queue.phase)
    (hk : t.queue.kicked = s.queue.kicked) (hmem : t.mem = s.mem) (hdisk : t.disk = s.disk)
    (hhist : t.history = s.history) (hb : t.queue.vq.buffers = s.queue.vq.buffers)
    (hr : t.queue.received = s.queue.received) : PhaseInvariant cfg contents t := by
  unfold PhaseInvariant at hp ⊢
  rw [hphase]
  split at hp
  · exact ⟨hp.1.of_eq hq hk hhist, hdisk.trans hp.2⟩
  · exact ⟨hp.1.of_eq hq hk hhist, hdisk.trans hp.2.1, hp.2.2⟩
  · exact ⟨hp.1.of_eq hq hk hhist, hp.2.of_eq hmem hdisk hhist hb hr⟩
  · refine ⟨?_, hp.2.of_eq hmem hdisk hhist hb hr⟩
    have hkicked := hp.1
    unfold Kicked at hkicked ⊢
    rwa [hq, hk, hhist]

theorem step_invariant {t : State} (hs : Step cfg s t) (hi : Invariant cfg disk contents s) :
    ∃ contents', Invariant cfg disk contents' t := by
  cases hs with
  | client m hidle hm =>
    obtain ⟨hq, hd⟩ := hi.idle hidle
    refine ⟨contents, hi.queue, hi.heads, hi.run, hi.entries, hi.completed, ?_⟩
    simp only [PhaseInvariant, hidle]
    exact ⟨⟨hq.phase, hq.kicked⟩, hd⟩
  | refuse c hidle hc =>
    obtain ⟨hq, hd⟩ := hi.idle hidle
    refine ⟨contents, hi.queue, hi.heads, hi.run, hi.entries, hi.completed, ?_⟩
    rw [blkCapacity_div] at hc
    exact ⟨⟨hq.phase, hq.kicked⟩, hd, hc⟩
  | submit c hidle hc hb =>
    obtain ⟨hq, hd⟩ := hi.idle hidle
    rw [blkCapacity_div] at hc
    have hlt : c.sector < 2 ^ 64 := by
      have := cfg.sectors_lt
      omega
    have hle := hi.queue.received_le
    have hkicked := hq.kicked
    refine ⟨contents, hi.queue.of_buffers _, hi.heads, hi.run, hi.entries, hi.completed, ?_⟩
    refine ⟨⟨hq.phase, hq.kicked⟩, hc, hb, ⟨_, rfl⟩, fun x hx => buildRequest_outside hx, ?_, ?_⟩
    · intro _
      exact ⟨buildRequest_built hb hlt, hd⟩
    · intro hlt
      dsimp only at hlt
      omega
  | kick c m hphase =>
    obtain ⟨hq, hp⟩ := hi.submitted hphase
    have hroom : s.queue.kicked.length < s.queue.completed + virtqEntryNum := by
      have := hi.completed
      rw [hq.kicked]
      exact Nat.lt_add_right_iff_pos.mpr (by decide) |>.trans_le (Nat.add_le_add_right this _)
    refine ⟨contents, Virtqueue.step_invariant (.kick _ 0 hq.phase hroom) hi.queue, hi.heads,
      hi.run, hi.entries, hi.completed, ?_⟩
    refine ⟨⟨rfl, hq.kicked⟩, ?_⟩
    apply hp.of_eq <;> rfl
  | publish c m d hphase hring =>
    obtain ⟨hk, hp⟩ := hi.kicked hphase
    simp only [Kicked, hring] at hk
    obtain ⟨rfl, hlen⟩ := hk
    refine ⟨contents, Virtqueue.step_invariant (.publish _ 0 hring) hi.queue, ?_, hi.run,
      hi.entries, hi.completed, ?_⟩
    · intro d hd
      rcases List.mem_append.mp hd with h | h
      · exact hi.heads d h
      · exact List.mem_singleton.mp h
    · simp only [PhaseInvariant, hphase]
      constructor
      · simp only [Kicked, List.length_append, List.length_singleton, hlen]
      · apply hp.of_eq <;> rfl
  | notify c m hphase hpub =>
    obtain ⟨hk, hp⟩ := hi.kicked hphase
    simp only [Kicked, hpub] at hk
    refine ⟨contents, Virtqueue.step_invariant (.notify _ hpub) hi.queue, hi.heads, hi.run,
      hi.entries, hi.completed, ?_⟩
    simp only [PhaseInvariant, hphase]
    refine ⟨hk, ?_⟩
    apply hp.of_eq <;> rfl
  | count c m hphase hnot =>
    obtain ⟨hk, hp⟩ := hi.kicked hphase
    simp only [Kicked, hnot] at hk
    refine ⟨contents, Virtqueue.step_invariant (.count _ hnot) hi.queue, hi.heads, hi.run,
      hi.entries, hi.completed, ?_⟩
    simp only [PhaseInvariant, hphase]
    refine ⟨hk, ?_⟩
    apply hp.of_eq <;> rfl
  | serve i j k hn hty =>
    obtain ⟨c, m, hphase, hk, hp, hlen, haddr, hdata, hstatus⟩ := hi.next hn
    obtain ⟨hb, hd⟩ := hp.unserved hlen
    refine ⟨contents, Virtqueue.step_invariant (.take _ hn.1) hi.queue, hi.heads, hi.run,
      hi.entries, hi.completed, ?_⟩
    simp only [PhaseInvariant, hphase, haddr, hdata, hstatus, hd]
    refine ⟨hk, hp.answered rfl ?_ (takeEntry_taken hlen) (answered_serve hb)⟩
    intro x hx
    have hdata : x < cfg.kallocAddr + dataOffset ∨ cfg.kallocAddr + dataOffset + sectorSize ≤ x := by
      simp only [Outside, blkReqSize, dataOffset, sectorSize] at hx ⊢
      omega
    exact (status_outside _ _ hx).trans (transferData_outside hdata)
  | fail i j k status hn hst =>
    obtain ⟨c, m, hphase, hk, hp, hlen, haddr, hdata, hstatus⟩ := hi.next hn
    obtain ⟨hb, hd⟩ := hp.unserved hlen
    refine ⟨contents, Virtqueue.step_invariant (.take _ hn.1) hi.queue, hi.heads, hi.run,
      hi.entries, hi.completed, ?_⟩
    simp only [PhaseInvariant, hphase, hstatus, hd]
    refine ⟨hk, hp.answered rfl ?_ (takeEntry_taken hlen) (answered_fail hst)⟩
    exact fun x hx => status_outside _ _ hx
  | finish hlt =>
    refine ⟨contents, Virtqueue.step_invariant (.finish _ hlt) hi.queue, hi.heads, hi.run,
      hi.entries, Nat.le_succ_of_le hi.completed, ?_⟩
    apply hi.phase.of_eq <;> rfl
  | «return» c m hphase hidle hbusy =>
    obtain ⟨hk, hp⟩ := hi.kicked hphase
    simp only [Kicked, hidle] at hk
    have hdone : s.queue.completed = s.queue.kicked.length := (hi.queue.busy hidle).mp hbusy
    have hcl := hi.queue.completed_le
    have hans := hp.served (by omega)
    have hlen : (s.history ++ [returned cfg c m s.mem]).length = s.history.length + 1 := by simp
    refine ⟨s.disk, hi.queue, hi.heads, ?_, ?_, ?_, ?_⟩
    · rw [List.map_append]
      exact hi.run.snoc (returned_step hp.apart hans)
    · intro e he
      rcases List.mem_append.mp he with h | h
      · exact hi.entries e h
      · rw [List.mem_singleton.mp h]
        exact returned_framed hp.inRange hp.apart hp.outside
    · exact hlen.trans_le (hk.symm.trans hdone.symm).le
    · exact ⟨⟨hidle, hk.trans hlen.symm⟩, rfl⟩

theorem reachable_invariant (hr : Reachable cfg disk s) :
    ∃ contents, Invariant cfg disk contents s := by
  induction hr with
  | init mem h => exact ⟨disk, initial_invariant mem disk h⟩
  | step _ hs ih =>
    obtain ⟨contents, hi⟩ := ih
    exact step_invariant hs hi

def kickLeft : KickPhase → ℕ
  | .ringWritten _ => 3
  | .published => 2
  | .notified => 1
  | .idle => 0

def remaining (s : State) : ℕ :=
  kickLeft s.queue.phase + (s.history.length + 1 - s.queue.received.length) +
    (s.history.length + 1 - s.queue.completed)

theorem Invariant.next_chain (hi : Invariant cfg disk contents s) {c : Call} {m : Mem}
    (h : s.phase = .kicked c m) (hlt : s.queue.received.length < s.queue.kicked.length) :
    NextChain s.queue 0 1 2 := by
  obtain ⟨t, ht⟩ := (hi.kicked h).2.chain
  constructor
  · intro he
    exact hlt.ne (hi.queue.all_taken.mp he)
  · rw [hi.head hlt, ht]
    exact chain_fillThree

theorem Invariant.enabled (hi : Invariant cfg disk contents s) {c : Call} {m : Mem}
    (h : s.phase = .kicked c m) : ∃ t, Step cfg s t := by
  obtain ⟨hk, hp⟩ := hi.kicked h
  cases hq : s.queue.phase with
  | ringWritten d => exact ⟨_, .publish s c m d h hq⟩
  | published => exact ⟨_, .notify s c m h hq⟩
  | notified => exact ⟨_, .count s c m h hq⟩
  | idle =>
    have hcl := hi.queue.completed_le
    have hle := hi.queue.received_le
    by_cases hdone : s.queue.completed = s.queue.kicked.length
    · exact ⟨_, .return s c m h hq ((hi.queue.busy hq).mpr hdone)⟩
    · by_cases hfin : s.queue.completed < s.queue.received.length
      · exact ⟨_, .finish s hfin⟩
      · -- nothing is answered, so the device can take the request
        exact ⟨_, .fail s 0 1 2 1 (hi.next_chain h (by omega)) (by decide)⟩

theorem Invariant.decreases (hi : Invariant cfg disk contents s) {c : Call} {m : Mem}
    (h : s.phase = .kicked c m) {t : State} (hs : Step cfg s t) :
    (t.phase = .idle ∧ t.history.length = s.history.length + 1) ∨
      (t.phase = .kicked c m ∧ remaining t < remaining s) := by
  have hcl := hi.queue.completed_le
  have hle := hi.queue.received_le
  have hk := (hi.kicked h).1.length_le
  cases hs with
  | client m' hphase | refuse c' hphase | submit c' hphase | kick c' m' hphase =>
    rw [h] at hphase
    cases hphase
  | publish c' m' d _ hq =>
    refine .inr ⟨h, ?_⟩
    simp only [remaining, hq, kickLeft]
    omega
  | notify c' m' _ hq =>
    refine .inr ⟨h, ?_⟩
    simp only [remaining, hq, kickLeft]
    omega
  | count c' m' _ hq =>
    refine .inr ⟨h, ?_⟩
    simp only [remaining, hq, kickLeft]
    omega
  | serve i j k hn | fail i j k status hn =>
    obtain ⟨_, _, _, _, _, hlen, _⟩ := hi.next hn
    refine .inr ⟨h, ?_⟩
    simp only [remaining, takeEntry, List.length_append, List.length_singleton]
    omega
  | finish hlt =>
    refine .inr ⟨h, ?_⟩
    simp only [remaining]
    omega
  | «return» => exact .inl ⟨rfl, by simp⟩

/-- Driver and device together always bring a call to its return. -/
theorem call_returns (hr : Reachable cfg disk s) {c : Call} {m : Mem}
    (h : s.phase = .kicked c m) :
    ∃ t, Relation.ReflTransGen (Step cfg) s t ∧ t.phase = .idle ∧
      t.history.length = s.history.length + 1 := by
  generalize hn : remaining s = n
  induction n using Nat.strong_induction_on generalizing s with
  | _ n ih =>
    obtain ⟨contents, hi⟩ := reachable_invariant hr
    obtain ⟨t, hs⟩ := hi.enabled h
    rcases hi.decreases h hs with ⟨hidle, hlen⟩ | ⟨hk, hlt⟩
    · exact ⟨t, .single hs, hidle, hlen⟩
    · have hhist : t.history = s.history := by
        cases hs with
        | «return» => cases hk
        | _ => rfl
      obtain ⟨u, hu, hidle, hlen⟩ := ih _ (hn ▸ hlt) (hr.step hs) hk rfl
      exact ⟨u, .head hs hu, hidle, hhist ▸ hlen⟩

theorem returned_ok {c : Call} {before m : Mem} {a : ℕ}
    (ha : a = cfg.kallocAddr + statusOffset) :
    (returned cfg c before (store8 m a 0)).ok = true := by
  rw [← blkReqPaddr_eq] at ha
  exact decide_eq_true (if_pos ha.symm)

/-- With no call under way, any call in range may be made and succeed. -/
theorem call_served (hr : Reachable cfg disk s) (hidle : s.phase = .idle) {c : Call}
    (hc : c.sector < cfg.sectors) (hb : BufferApart cfg c) :
    ∃ t e, Reachable cfg disk t ∧ t.phase = .idle ∧ t.history = s.history ++ [e] ∧
      e.call = c ∧ e.before = s.mem ∧ e.ok = true := by
  obtain ⟨_, hi⟩ := reachable_invariant hr
  have hquiet := (hi.idle hidle).1.kicked
  have hdone := hi.completed
  have hcl := hi.queue.completed_le
  have hle := hi.queue.received_le
  rw [← blkCapacity_div cfg] at hc
  have h1 := hr.step (.submit _ c hidle hc hb)
  have h2 := h1.step (.kick _ _ _ rfl)
  have h3 := h2.step (.publish _ _ _ 0 rfl rfl)
  have h4 := h3.step (.notify _ _ _ rfl rfl)
  have h5 := h4.step (.count _ _ _ rfl rfl)
  obtain ⟨_, hi5⟩ := reachable_invariant h5
  have hn := hi5.next_chain rfl (by
    simp only [List.length_append, List.length_singleton]
    omega)
  obtain ⟨_, _, _, _, _, _, haddr, _, hstatus⟩ := hi5.next hn
  obtain ⟨hbuilt, _⟩ := (hi5.kicked rfl).2.unserved (by dsimp only; omega)
  have h6 := h5.step (.serve _ 0 1 2 hn (by
    rw [haddr, hbuilt.type]
    split
    · exact .inr rfl
    · exact .inl rfl))
  have h7 := h6.step (.finish _ (by
    simp only [takeEntry, List.length_append, List.length_singleton]
    omega))
  obtain ⟨_, hi7⟩ := reachable_invariant h7
  have h8 := h7.step (.return _ _ _ rfl rfl ((hi7.queue.busy rfl).mpr (by
    simp only [takeEntry, List.length_append, List.length_singleton]
    omega)))
  exact ⟨_, _, h8, rfl, rfl, rfl, rfl, returned_ok hstatus⟩

end

/-- What the calls of a run, and the disk, amount to. `disk` is what it held at first. -/
structure Refines (cfg : Config) (disk : ℕ → Sector) (s : State) : Prop where
  run : ∃ contents, Run disk (s.history.map Entry.operation) contents ∧
    (s.phase = .idle → s.disk = contents)
  read : ∀ pre e post, s.history = pre ++ e :: post → e.call.isWrite = 0 → e.ok = true →
    readSector e.after e.call.buf =
      (lastWrite (pre.map Entry.operation) e.call.sector).getD (disk e.call.sector)
  failed_read : ∀ e ∈ s.history, e.call.isWrite = 0 → e.ok = false →
    readSector e.after e.call.buf = readSector e.before e.call.buf
  other_sectors : ∀ k, (∀ c m, s.phase = .kicked c m → c.isWrite ≠ 0 → k ≠ c.sector) →
    s.disk k = (lastWrite (s.history.map Entry.operation) k).getD (disk k)
  entries : ∀ e ∈ s.history, e.Framed cfg
  published : ∀ c m, s.phase = .kicked c m → c.sector < cfg.sectors
  refused : ∀ c, s.phase = .panicked c →
    cfg.sectors ≤ c.sector ∧ s.queue.kicked.length = s.history.length

theorem Answered.other {cfg : Config} {c : Call} {before m : Mem} {contents disk : ℕ → Sector}
    (h : Answered cfg c before m contents disk) {k : ℕ} (hk : c.isWrite ≠ 0 → k ≠ c.sector) :
    disk k = contents k := by
  by_cases hs : m (cfg.kallocAddr + statusOffset) = 0
  · by_cases hw : c.isWrite = 0
    · rw [(h.read hs hw).1]
    · rw [h.written hs hw, update_of_ne (hk hw)]
  · rw [h.failed hs]

theorem Invariant.disk_eq {cfg : Config} {disk contents : ℕ → Sector} {s : State}
    (hi : Invariant cfg disk contents s) {k : ℕ}
    (hk : ∀ c m, s.phase = .kicked c m → c.isWrite ≠ 0 → k ≠ c.sector) :
    s.disk k = contents k := by
  have hn := hi.completed.trans hi.queue.completed_le
  have hp := hi.phase
  unfold PhaseInvariant at hp
  split at hp
  · rw [hp.2]
  · rw [hp.2.1]
  · have hquiet := hp.1.kicked
    have hle := hi.queue.received_le
    rw [(hp.2.unserved (by omega)).2]
  · next c m hphase =>
    rcases hn.eq_or_lt with h | h
    · rw [(hp.2.unserved h.symm).2]
    · exact (hp.2.served h).other (hk c m hphase)

theorem Entry.operation_read {e : Entry} (hw : e.call.isWrite = 0) (hok : e.ok = true) :
    e.operation = .read e.call.sector (some (readSector e.after e.call.buf)) := by
  simp [Entry.operation, hw, hok]

theorem Entry.Framed.buffer {cfg : Config} {e : Entry} (h : e.Framed cfg)
    (hne : ¬ (e.ok = true ∧ e.call.isWrite = 0)) :
    readSector e.after e.call.buf = readSector e.before e.call.buf :=
  readSector_congr fun i =>
    h.frame _ (h.apart.outside i) fun hok hw => absurd ⟨hok, hw⟩ hne

/-- Whatever the sequence of calls, their arguments, and the requests the device fails, and
in whatever order driver and device take their steps. -/
theorem disk_driver_refines_sector_store (cfg : Config) (disk : ℕ → Sector) (s : State)
    (hr : Reachable cfg disk s) : Refines cfg disk s := by
  obtain ⟨contents, hi⟩ := reachable_invariant hr
  constructor
  · exact ⟨contents, hi.run, fun h => (hi.idle h).2⟩
  · intro pre e post he hw hok
    have hrun := hi.run
    rw [he, List.map_append, List.map_cons, Entry.operation_read hw hok] at hrun
    exact hrun.read
  · intro e he hw hok
    apply (hi.entries e he).buffer
    simp [hok]
  · intro k hk
    rw [hi.disk_eq hk]
    exact hi.run.contents k
  · exact hi.entries
  · intro c m hc
    exact (hi.kicked hc).2.inRange
  · intro c hc
    have hp := hi.phase
    simp only [PhaseInvariant, hc] at hp
    exact ⟨hp.2.2, hp.1.kicked⟩

/-- A sector is written, then read into another buffer. -/
theorem disk_driver_refines_write_read :
    ∃ (cfg : Config) (s : State) (e₁ e₂ : Entry),
      s.history = [e₁, e₂] ∧ e₁.call = ⟨0x80300000, 3, 1⟩ ∧ e₂.call = ⟨0x80301000, 3, 0⟩ ∧
      Refines cfg (fun _ _ => 0) s ∧ readSector e₂.after 0x80301000 = fun _ => 7 := by
  let cfg : Config := ⟨0x80210000, 8, by decide, by decide⟩
  have h0 : Reachable cfg (fun _ _ => 0) (initial zeroPages (fun _ => 7) fun _ _ => 0) :=
    .init (p := 0x80214000) _ rfl
  obtain ⟨s₁, e₁, h1, hidle, hhist, hcall, hbefore, hok⟩ :=
    call_served h0 rfl (c := ⟨0x80300000, 3, 1⟩) (by decide) (by unfold BufferApart Apart; decide)
  obtain ⟨s₂, e₂, h2, _, hhist₂, hcall₂, _, hok₂⟩ :=
    call_served h1 hidle (c := ⟨0x80301000, 3, 0⟩) (by decide) (by unfold BufferApart Apart; decide)
  rw [hhist] at hhist₂
  have href := disk_driver_refines_sector_store cfg _ s₂ h2
  refine ⟨cfg, s₂, e₁, e₂, hhist₂, hcall, hcall₂, href, ?_⟩
  have hop : e₁.operation = .write 3 (fun _ => 7) true := by
    rw [Entry.operation, hcall, hbefore, hok]
    rfl
  have hread := href.read [e₁] e₂ [] hhist₂ (by rw [hcall₂]) hok₂
  simpa [hop, hcall₂, lastWrite, written] using hread

end DiskDriver
