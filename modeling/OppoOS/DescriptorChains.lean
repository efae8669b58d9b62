import Mathlib.Data.List.Pairwise
import OppoOS.Virtqueue

/-!
# Descriptor chains

The requests of `drivers/virtio/virtio_blkio.c` and `drivers/virtio/virtio_gpu.c` as the
device finds them: every request fills the first entries of the same descriptor table and
leaves the others, and the `next` of its own last entry, as earlier requests left them.
-/
namespace DescriptorChains

open RingBuffer Virtqueue Function

abbrev Table := Fin virtqEntryNum → VirtqDesc

def virtqDescFNext : ℕ := 1 <<< 0
def virtqDescFWrite : ℕ := 1 <<< 1

def HasNext (d : VirtqDesc) : Prop := d.flags &&& virtqDescFNext ≠ 0
def Writable (d : VirtqDesc) : Prop := d.flags &&& virtqDescFWrite ≠ 0

instance (d : VirtqDesc) : Decidable (HasNext d) :=
  inferInstanceAs (Decidable (d.flags &&& virtqDescFNext ≠ 0))
instance (d : VirtqDesc) : Decidable (Writable d) :=
  inferInstanceAs (Decidable (d.flags &&& virtqDescFWrite ≠ 0))

def setDesc (t : Table) (i : Fin virtqEntryNum) (addr len flags : ℕ) : Table :=
  update t i { t i with addr := addr, len := len, flags := flags }

def setNext (t : Table) (i : Fin virtqEntryNum) (next : ℕ) : Table :=
  update t i { t i with next := next }

def fillTwo (t : Table) (cmd size resp respLen : ℕ) : Table :=
  let t := setNext (setDesc t 0 cmd size virtqDescFNext) 0 1
  setDesc t 1 resp respLen virtqDescFWrite

def fillThree (t : Table) (cmd size data dataLen dataFlags resp respLen : ℕ) : Table :=
  let t := setNext (setDesc t 0 cmd size virtqDescFNext) 0 1
  let t := setNext (setDesc t 1 data dataLen (virtqDescFNext ||| dataFlags)) 1 2
  setDesc t 2 resp respLen virtqDescFWrite

/-- `sizeof` and `offsetof` of `struct virtio_blk_req`. -/
def blkReqSize : ℕ := 529
def dataOffset : ℕ := 16
def statusOffset : ℕ := 528

def sectorSize : ℕ := 512

def create2dSize : ℕ := 40
def attachBackingSize : ℕ := 32
def memEntrySize : ℕ := 16
def setScanoutSize : ℕ := 48
def transferSize : ℕ := 56
def resourceFlushSize : ℕ := 48
def framebufferSize : ℕ := 4 * 480 * 640

/-- `(uint64_t *) &cmd + sizeof(cmd)`: the addition counts words of eight bytes. -/
def respAddr (cmd size : ℕ) : ℕ := (cmd + 8 * size) % 2 ^ 64

/-- The requests with the addresses of the objects they name. `blk_req_paddr` is 32 bits
wide, so that the sums with it do not wrap. -/
inductive Request where
  | readWriteDisk (blkReqPaddr buf sector : ℕ) (isWrite : ℤ)
  | create2d (cmd : ℕ)
  | attachBacking (cmd memEntry : ℕ)
  | setScanout (cmd : ℕ)
  | transferToHost2d (cmd framebuffer : ℕ)
  | resourceFlush (cmd : ℕ)
  deriving DecidableEq, Repr

/-- The descriptors of `read_write_disk`: neither `buf` nor `sector` is in them. -/
def diskChain (t : Table) (blkReqPaddr : ℕ) (isWrite : ℤ) : Table :=
  fillThree t blkReqPaddr (4 * 2 + 8) (blkReqPaddr + dataOffset) sectorSize
    (if isWrite ≠ 0 then 0 else virtqDescFWrite) (blkReqPaddr + statusOffset) 1

/-- The second entry of `transfer` has the length of the pointer `framebuffer`, and its
response is put at the command itself. -/
def Request.fill (t : Table) : Request → Table
  | .readWriteDisk blkReqPaddr _ _ isWrite => diskChain t blkReqPaddr isWrite
  | .create2d cmd => fillTwo t cmd create2dSize (respAddr cmd create2dSize) 8
  | .attachBacking cmd memEntry =>
    fillThree t cmd attachBackingSize memEntry memEntrySize 0
      (respAddr cmd attachBackingSize) 8
  | .setScanout cmd => fillTwo t cmd setScanoutSize (respAddr cmd setScanoutSize) 8
  | .transferToHost2d cmd framebuffer => fillThree t cmd transferSize framebuffer 8 0 cmd 8
  | .resourceFlush cmd => fillTwo t cmd resourceFlushSize (respAddr cmd resourceFlushSize) 8

def publish (vq : VirtQueue) (r : Request) : VirtQueue :=
  (virtqKick { vq with buffers := r.fill vq.buffers } 0).1

def publishAll (vq : VirtQueue) (rs : List Request) : VirtQueue := rs.foldl publish vq

def virtioGpuInit (create2dCmd attachBacking memEntry setScanOut : ℕ) : List Request :=
  [.create2d create2dCmd, .attachBacking attachBacking memEntry, .setScanout setScanOut]

def flush (transfer framebuffer flush : ℕ) : List Request :=
  [.transferToHost2d transfer framebuffer, .resourceFlush flush]

/-- The entries met from index `i`, following `next` as long as the flag is set. -/
inductive Chain (t : Table) : ℕ → List (Fin virtqEntryNum) → Prop where
  | last (i : Fin virtqEntryNum) : ¬ HasNext (t i) → Chain t i [i]
  | next (i : Fin virtqEntryNum) {l} : HasNext (t i) → Chain t (t i).next l → Chain t i (i :: l)

theorem Chain.unique {t : Table} {i : ℕ} {l l' : List (Fin virtqEntryNum)} (h : Chain t i l)
    (h' : Chain t i l') : l = l' := by
  induction h generalizing l' with
  | last i hn =>
    generalize hj : (i : ℕ) = j at h'
    cases h' with
    | last k _ => rw [Fin.ext hj]
    | next k hk _ => exact absurd (Fin.ext hj ▸ hk) hn
  | next i hn _ ih =>
    generalize hj : (i : ℕ) = j at h'
    cases h' with
    | last k hk => exact absurd (Fin.ext hj ▸ hn) hk
    | next k _ hc =>
      obtain rfl : i = k := Fin.ext hj
      rw [ih hc]

structure Region where
  addr : ℕ
  size : ℕ
  deriving DecidableEq, Repr

def range (d : VirtqDesc) : Region := ⟨d.addr, d.len⟩

def Within (a b : Region) : Prop := b.addr ≤ a.addr ∧ a.addr + a.size ≤ b.addr + b.size
def Apart (a b : Region) : Prop := a.addr + a.size ≤ b.addr ∨ b.addr + b.size ≤ a.addr

/-- Equal up to a `next` that is not followed. -/
def SameDesc (d e : VirtqDesc) : Prop :=
  d.addr = e.addr ∧ d.len = e.len ∧ d.flags = e.flags ∧ (HasNext d → d.next = e.next)

/-- The chain from `head` of a table that request `r` was written into. Each entry is the
one `r` writes into any table, so that none is left from an earlier request. -/
structure WellFormed (owned : List Region) (r : Request) (t : Table) (head : ℕ)
    (l : List (Fin virtqEntryNum)) : Prop where
  ends : Chain t head l
  fresh : ∀ i ∈ l, ∀ other : Table, SameDesc (t i) (r.fill other i)
  readable_first : (l.map t).Pairwise fun d e => Writable d → Writable e
  owned : ∀ d ∈ l.map t, Writable d → ∃ o ∈ owned, Within (range d) o
  apart : ∀ d ∈ l.map t, ∀ e ∈ l.map t, Writable d → ¬ Writable e → Apart (range d) (range e)

/-- The chain the device finds at the ring entry `publish` has just written. -/
def PublishedWellFormed (owned : List Region) (vq : VirtQueue) (r : Request) : Prop :=
  ∃ l, WellFormed owned r (publish vq r).buffers
    ((publish vq r).avail.ring (slot virtqEntryNum vq.avail.idx)) l

def Request.objects : Request → List Region
  | .readWriteDisk blkReqPaddr _ _ _ => [⟨blkReqPaddr, blkReqSize⟩]
  | .create2d cmd => [⟨cmd, create2dSize⟩]
  | .attachBacking cmd memEntry => [⟨cmd, attachBackingSize⟩, ⟨memEntry, memEntrySize⟩]
  | .setScanout cmd => [⟨cmd, setScanoutSize⟩]
  | .transferToHost2d cmd framebuffer => [⟨cmd, transferSize⟩, ⟨framebuffer, framebufferSize⟩]
  | .resourceFlush cmd => [⟨cmd, resourceFlushSize⟩]

/-- The driver's objects lie apart in the address space, those of the request among them. -/
structure Placed (owned : List Region) (r : Request) : Prop where
  objects : ∀ o ∈ r.objects, o ∈ owned
  apart : owned.Pairwise Apart

theorem fillThree_zero (t : Table) (cmd size data dataLen dataFlags resp respLen : ℕ) :
    fillThree t cmd size data dataLen dataFlags resp respLen 0 =
      ⟨cmd, size, virtqDescFNext, 1⟩ := by
  simp [fillThree, setDesc, setNext]

theorem fillThree_one (t : Table) (cmd size data dataLen dataFlags resp respLen : ℕ) :
    fillThree t cmd size data dataLen dataFlags resp respLen 1 =
      ⟨data, dataLen, virtqDescFNext ||| dataFlags, 2⟩ := by
  simp [fillThree, setDesc, setNext]

theorem fillThree_two (t : Table) (cmd size data dataLen dataFlags resp respLen : ℕ) :
    fillThree t cmd size data dataLen dataFlags resp respLen 2 =
      ⟨resp, respLen, virtqDescFWrite, (t 2).next⟩ := by
  simp [fillThree, setDesc, setNext]

theorem fillTwo_zero (t : Table) (cmd size resp respLen : ℕ) :
    fillTwo t cmd size resp respLen 0 = ⟨cmd, size, virtqDescFNext, 1⟩ := by
  simp [fillTwo, setDesc, setNext]

theorem fillTwo_one (t : Table) (cmd size resp respLen : ℕ) :
    fillTwo t cmd size resp respLen 1 = ⟨resp, respLen, virtqDescFWrite, (t 1).next⟩ := by
  simp [fillTwo, setDesc, setNext]

/-! Which flags are set, for the three values of `flags` in use. -/

@[simp] theorem hasNext_next (addr len next : ℕ) :
    HasNext ⟨addr, len, virtqDescFNext, next⟩ := by
  change 1 &&& 1 ≠ 0
  decide

@[simp] theorem not_writable_next (addr len next : ℕ) :
    ¬ Writable ⟨addr, len, virtqDescFNext, next⟩ := by
  change ¬ (1 &&& 2 ≠ 0)
  decide

@[simp] theorem hasNext_or (addr len f next : ℕ) :
    HasNext ⟨addr, len, virtqDescFNext ||| f, next⟩ := by
  change (1 ||| f) &&& 1 ≠ 0
  rw [Nat.and_or_distrib_right]
  intro h
  exact absurd (Nat.or_eq_zero_iff.mp h).1 (by decide)

@[simp] theorem writable_or (addr len f next : ℕ) :
    Writable ⟨addr, len, virtqDescFNext ||| f, next⟩ ↔ f &&& virtqDescFWrite ≠ 0 := by
  change (1 ||| f) &&& 2 ≠ 0 ↔ f &&& 2 ≠ 0
  rw [Nat.and_or_distrib_right]
  constructor
  · intro h hf
    exact h (by rw [hf]; decide)
  · intro h hf
    exact h (Nat.or_eq_zero_iff.mp hf).2

@[simp] theorem not_hasNext_write (addr len next : ℕ) :
    ¬ HasNext ⟨addr, len, virtqDescFWrite, next⟩ := by
  change ¬ (2 &&& 1 ≠ 0)
  decide

@[simp] theorem writable_write (addr len next : ℕ) :
    Writable ⟨addr, len, virtqDescFWrite, next⟩ := by
  change 2 &&& 2 ≠ 0
  decide

theorem sameDesc_refl (d : VirtqDesc) : SameDesc d d := ⟨rfl, rfl, rfl, fun _ => rfl⟩

theorem sameDesc_write (addr len next next' : ℕ) :
    SameDesc ⟨addr, len, virtqDescFWrite, next⟩ ⟨addr, len, virtqDescFWrite, next'⟩ :=
  ⟨rfl, rfl, rfl, fun h => absurd h (not_hasNext_write _ _ _)⟩

section

variable {owned : List Region} {r : Request} {t : Table}
  {cmd size data dataLen dataFlags resp respLen : ℕ}

/-- Once the chain is known and fresh, being well formed is about its ranges only. -/
theorem exists_wellFormed_iff {l : List (Fin virtqEntryNum)} (hc : Chain t 0 l)
    (hf : ∀ i ∈ l, ∀ other : Table, SameDesc (t i) (r.fill other i)) :
    (∃ l, WellFormed owned r t 0 l) ↔
      ((l.map t).Pairwise fun d e => Writable d → Writable e) ∧
      (∀ d ∈ l.map t, Writable d → ∃ o ∈ owned, Within (range d) o) ∧
      ∀ d ∈ l.map t, ∀ e ∈ l.map t, Writable d → ¬ Writable e → Apart (range d) (range e) := by
  constructor
  · rintro ⟨l', hwf⟩
    obtain rfl := hwf.ends.unique hc
    exact ⟨hwf.readable_first, hwf.owned, hwf.apart⟩
  · rintro ⟨hr, ho, ha⟩
    exact ⟨l, hc, hf, hr, ho, ha⟩

theorem chain_fillTwo : Chain (fillTwo t cmd size resp respLen) 0 [0, 1] := by
  have h0 := fillTwo_zero t cmd size resp respLen
  have h1 := fillTwo_one t cmd size resp respLen
  have hlast : Chain (fillTwo t cmd size resp respLen) 1 [1] := .last 1 (by simp [h1])
  refine .next 0 (by simp [h0]) ?_
  rw [h0]
  exact hlast

theorem chain_fillThree :
    Chain (fillThree t cmd size data dataLen dataFlags resp respLen) 0 [0, 1, 2] := by
  have h0 := fillThree_zero t cmd size data dataLen dataFlags resp respLen
  have h1 := fillThree_one t cmd size data dataLen dataFlags resp respLen
  have h2 := fillThree_two t cmd size data dataLen dataFlags resp respLen
  generalize fillThree t cmd size data dataLen dataFlags resp respLen = u at h0 h1 h2
  have hlast : Chain u 2 [2] := .last 2 (by simp [h2])
  have hmiddle : Chain u 1 [1, 2] := by
    refine .next 1 (by simp [h1]) ?_
    rw [h1]
    exact hlast
  refine .next 0 (by simp [h0]) ?_
  rw [h0]
  exact hmiddle

theorem wellFormed_fillTwo (hr : ∀ t, r.fill t = fillTwo t cmd size resp respLen) :
    (∃ l, WellFormed owned r (r.fill t) 0 l) ↔
      (∃ o ∈ owned, Within ⟨resp, respLen⟩ o) ∧ Apart ⟨resp, respLen⟩ ⟨cmd, size⟩ := by
  have h0 := fun t => fillTwo_zero t cmd size resp respLen
  have h1 := fun t => fillTwo_one t cmd size resp respLen
  rw [exists_wellFormed_iff (l := [0, 1]) (hr t ▸ chain_fillTwo)]
  · simp [hr, h0, h1, range]
  · intro i hi other
    rw [hr, hr]
    simp only [List.mem_cons, List.not_mem_nil, or_false] at hi
    rcases hi with rfl | rfl
    · rw [h0, h0]
      exact sameDesc_refl _
    · rw [h1, h1]
      exact sameDesc_write _ _ _ _

theorem wellFormed_fillThree
    (hr : ∀ t, r.fill t = fillThree t cmd size data dataLen dataFlags resp respLen) :
    (∃ l, WellFormed owned r (r.fill t) 0 l) ↔
      (∃ o ∈ owned, Within ⟨resp, respLen⟩ o) ∧ Apart ⟨resp, respLen⟩ ⟨cmd, size⟩ ∧
      if dataFlags &&& virtqDescFWrite ≠ 0 then
        (∃ o ∈ owned, Within ⟨data, dataLen⟩ o) ∧ Apart ⟨data, dataLen⟩ ⟨cmd, size⟩
      else Apart ⟨resp, respLen⟩ ⟨data, dataLen⟩ := by
  have h0 := fun t => fillThree_zero t cmd size data dataLen dataFlags resp respLen
  have h1 := fun t => fillThree_one t cmd size data dataLen dataFlags resp respLen
  have h2 := fun t => fillThree_two t cmd size data dataLen dataFlags resp respLen
  rw [exists_wellFormed_iff (l := [0, 1, 2]) (hr t ▸ chain_fillThree)]
  · by_cases hw : dataFlags &&& virtqDescFWrite = 0
    · simp [hr, h0, h1, h2, range, hw]
    · simp [hr, h0, h1, h2, range, hw]
      tauto
  · intro i hi other
    rw [hr, hr]
    simp only [List.mem_cons, List.not_mem_nil, or_false] at hi
    rcases hi with rfl | rfl | rfl
    · rw [h0, h0]
      exact sameDesc_refl _
    · rw [h1, h1]
      exact sameDesc_refl _
    · rw [h2, h2]
      exact sameDesc_write _ _ _ _

end

theorem publish_buffers (vq : VirtQueue) (r : Request) :
    (publish vq r).buffers = r.fill vq.buffers := rfl

theorem publish_head (vq : VirtQueue) (r : Request) :
    (publish vq r).avail.ring (slot virtqEntryNum vq.avail.idx) = 0 := by
  change update vq.avail.ring _ (ringEntry 0) _ = 0
  rw [update_self]
  rfl

theorem publishedWellFormed_iff (owned : List Region) (vq : VirtQueue) (r : Request) :
    PublishedWellFormed owned vq r ↔ ∃ l, WellFormed owned r (r.fill vq.buffers) 0 l := by
  rw [PublishedWellFormed, publish_buffers, publish_head]

instance : Std.Symm Apart where
  symm _ _ h := Or.symm h

theorem Within.apart {a b c : Region} (h : Within a b) (hbc : Apart b c) : Apart a c := by
  unfold Within at h
  unfold Apart at hbc ⊢
  omega

theorem Within.not_apart {a b : Region} (h : Within a b) (ha : 0 < a.size) : ¬ Apart a b := by
  unfold Within at h
  unfold Apart
  omega

/-- The response fits in an object of the driver that the request does not name. -/
def InOther (owned : List Region) (r : Request) (resp : Region) : Prop :=
  ∃ o ∈ owned, o ∉ r.objects ∧ Within resp o

theorem inOther_iff {owned : List Region} {r : Request} (hp : Placed owned r) {w : Region}
    (hw : 0 < w.size) :
    (∃ o ∈ owned, Within w o) ∧ (∀ c ∈ r.objects, Apart w c) ↔ InOther owned r w := by
  constructor
  · rintro ⟨⟨o, ho, hwo⟩, hapart⟩
    exact ⟨o, ho, fun hc => hwo.not_apart hw (hapart o hc), hwo⟩
  · rintro ⟨o, ho, hnot, hwo⟩
    refine ⟨⟨o, ho, hwo⟩, fun c hc => hwo.apart ?_⟩
    have hne : o ≠ c := fun h => hnot (h ▸ hc)
    exact hp.apart.forall ho (hp.objects c hc) hne

/-- The disk's requests, and those commands that have another object of the driver eight
times their own size behind their start. -/
def Fits (owned : List Region) (r : Request) : Prop :=
  match r with
  | .readWriteDisk _ _ _ _ => True
  | .create2d cmd => InOther owned r ⟨respAddr cmd create2dSize, 8⟩
  | .attachBacking cmd _ => InOther owned r ⟨respAddr cmd attachBackingSize, 8⟩
  | .setScanout cmd => InOther owned r ⟨respAddr cmd setScanoutSize, 8⟩
  | .transferToHost2d _ _ => False
  | .resourceFlush cmd => InOther owned r ⟨respAddr cmd resourceFlushSize, 8⟩

theorem wellFormed_command {owned : List Region} {r : Request} {t : Table} {cmd size : ℕ}
    (hp : Placed owned r) (hr : ∀ t, r.fill t = fillTwo t cmd size (respAddr cmd size) 8)
    (ho : r.objects = [⟨cmd, size⟩]) :
    (∃ l, WellFormed owned r (r.fill t) 0 l) ↔ InOther owned r ⟨respAddr cmd size, 8⟩ := by
  rw [wellFormed_fillTwo hr, ← inOther_iff hp (Nat.succ_pos 7), ho, List.forall_mem_singleton]

theorem wellFormed_disk {owned : List Region} {t : Table} {p buf sector : ℕ} {isWrite : ℤ}
    (hp : Placed owned (.readWriteDisk p buf sector isWrite)) :
    ∃ l, WellFormed owned (.readWriteDisk p buf sector isWrite)
      (Request.fill t (.readWriteDisk p buf sector isWrite)) 0 l := by
  have hblk : ⟨p, blkReqSize⟩ ∈ owned := hp.objects _ (List.mem_singleton_self _)
  have hdata : Within ⟨p + dataOffset, sectorSize⟩ ⟨p, blkReqSize⟩ := by
    simp only [Within, dataOffset, sectorSize, blkReqSize]
    omega
  have hstatus : Within ⟨p + statusOffset, 1⟩ ⟨p, blkReqSize⟩ := by
    simp only [Within, statusOffset, blkReqSize]
    omega
  have hheader : Apart ⟨p + dataOffset, sectorSize⟩ ⟨p, 4 * 2 + 8⟩ := .inr (Nat.le_refl (p + 16))
  have hapart : Apart ⟨p + statusOffset, 1⟩ ⟨p, 4 * 2 + 8⟩ := by
    simp only [Apart, statusOffset]
    omega
  have hparts : Apart ⟨p + statusOffset, 1⟩ ⟨p + dataOffset, sectorSize⟩ :=
    .inr (Nat.le_refl (p + 528))
  rw [wellFormed_fillThree (fun _ => rfl)]
  refine ⟨⟨_, hblk, hstatus⟩, hapart, ?_⟩
  apply iteInduction (motive := fun P : Prop => P)
  · intro _
    exact ⟨⟨_, hblk, hdata⟩, hheader⟩
  · intro _
    exact hparts

/-- The response overwrites the command. -/
theorem not_wellFormed_transfer {owned : List Region} {t : Table} {cmd framebuffer : ℕ} :
    ¬ ∃ l, WellFormed owned (.transferToHost2d cmd framebuffer)
      (Request.fill t (.transferToHost2d cmd framebuffer)) 0 l := by
  rw [wellFormed_fillThree (fun _ => rfl)]
  rintro ⟨-, h, -⟩
  simp only [Apart, transferSize] at h
  omega

theorem wellFormed_iff_fits {owned : List Region} {r : Request} (hp : Placed owned r) (t : Table) :
    (∃ l, WellFormed owned r (r.fill t) 0 l) ↔ Fits owned r := by
  cases r with
  | readWriteDisk p buf sector isWrite => exact iff_of_true (wellFormed_disk hp) trivial
  | create2d cmd => exact wellFormed_command hp (fun _ => rfl) rfl
  | attachBacking cmd memEntry =>
    change _ ↔ InOther owned _ ⟨respAddr cmd attachBackingSize, 8⟩
    rw [wellFormed_fillThree (fun _ => rfl), ← inOther_iff hp (Nat.succ_pos 7)]
    simp [Request.objects]
  | setScanout cmd => exact wellFormed_command hp (fun _ => rfl) rfl
  | transferToHost2d cmd framebuffer => exact iff_of_false not_wellFormed_transfer id
  | resourceFlush cmd => exact wellFormed_command hp (fun _ => rfl) rfl

/-- After every history, on every queue: which requests the device finds well formed. -/
theorem chain_wellFormed_iff (owned : List Region) (vq : VirtQueue) (earlier : List Request)
    (r : Request) (hp : Placed owned r) :
    PublishedWellFormed owned (publishAll vq earlier) r ↔ Fits owned r := by
  rw [publishedWellFormed_iff]
  exact wellFormed_iff_fits hp _

instance (a b : Region) : Decidable (Within a b) :=
  inferInstanceAs (Decidable (b.addr ≤ a.addr ∧ a.addr + a.size ≤ b.addr + b.size))
instance (a b : Region) : Decidable (Apart a b) :=
  inferInstanceAs (Decidable (a.addr + a.size ≤ b.addr ∨ b.addr + b.size ≤ a.addr))
instance (owned : List Region) (r : Request) (w : Region) : Decidable (InOther owned r w) :=
  inferInstanceAs (Decidable (∃ o ∈ owned, o ∉ r.objects ∧ Within w o))
instance (owned : List Region) (r : Request) : Decidable (Fits owned r) := by
  cases r <;> simp only [Fits] <;> infer_instance

/-- A read of the disk after a write. -/
theorem chain_wellFormed_read_after_write :
    PublishedWellFormed [⟨0x80210000, blkReqSize⟩]
      (publishAll zeroPages [.readWriteDisk 0x80210000 0x80300000 7 1])
      (.readWriteDisk 0x80210000 0x80300000 7 0) :=
  (chain_wellFormed_iff _ _ _ _
    ⟨by simp [Request.objects], List.pairwise_singleton _ _⟩).mpr trivial

/-- The commands on the stack in the order of their declaration, and the framebuffer. -/
def gpuObjects : List Region :=
  [⟨0x80220000, create2dSize⟩, ⟨0x80220028, attachBackingSize⟩, ⟨0x80220048, memEntrySize⟩,
    ⟨0x80220058, setScanoutSize⟩, ⟨0x80220088, transferSize⟩, ⟨0x802200c0, resourceFlushSize⟩,
    ⟨0x80400000, framebufferSize⟩]

def gpuRequests : List Request :=
  virtioGpuInit 0x80220000 0x80220028 0x80220048 0x80220058 ++
    flush 0x80220088 0x80400000 0x802200c0

/-- Not one of the five: four responses miss every object, the fifth is in its command. -/
theorem gpu_requests_not_wellFormed : gpuRequests.Forall fun r =>
    Placed gpuObjects r ∧ ¬ PublishedWellFormed gpuObjects zeroPages r := by
  apply List.forall_iff_forall_mem.mpr
  intro r hr
  have hfits : ∀ r ∈ gpuRequests, ¬ Fits gpuObjects r := by decide
  have hobjects : ∀ r ∈ gpuRequests, ∀ o ∈ r.objects, o ∈ gpuObjects := by decide
  have hp : Placed gpuObjects r := ⟨hobjects r hr, by decide⟩
  refine ⟨hp, ?_⟩
  rw [publishedWellFormed_iff, wellFormed_iff_fits hp]
  exact hfits r hr

end DescriptorChains
