import OppoOS.RingBuffer

/-!
# Virtqueues

`drivers/virtio/virtio.c`: the queue shared with a device, `virtq_init`, `virtq_kick` and
`virtq_is_busy`. Driver and device take their steps in any order, the steps inside
`virtq_kick` included; the counters are 16 bits wide and wrap.
-/
namespace Virtqueue

open RingBuffer Function

abbrev virtqEntryNum : ℕ := 16

instance instNeZeroVirtqEntryNum : NeZero virtqEntryNum := ⟨by decide⟩

def queueSel : ℕ := 0x030
def queueNum : ℕ := 0x038
def queueAlign : ℕ := 0x03c
def queuePfn : ℕ := 0x040
def queueNotify : ℕ := 0x050

/-- `struct virtq_desc`. -/
structure VirtqDesc where
  addr : ℕ
  len : ℕ
  flags : ℕ
  next : ℕ
  deriving DecidableEq, Repr

/-- `struct virtq_avail` without the flags, which are never set. -/
structure VirtqAvail where
  idx : ℕ
  ring : Fin virtqEntryNum → ℕ

/-- `struct virt_queue`. `usedIdx` is `used.idx`, at which `used_index` points; the driver
reads nothing else of `used`. -/
structure VirtQueue where
  buffers : Fin virtqEntryNum → VirtqDesc
  avail : VirtqAvail
  usedIdx : ℕ
  queueIndex : ℕ
  lastUsedIndex : ℕ

def zeroPages : VirtQueue := ⟨fun _ => ⟨0, 0, 0, 0⟩, ⟨0, fun _ => 0⟩, 0, 0, 0⟩

def virtqInit (virtqPaddr index : ℕ) (pages : VirtQueue) :
    Option (VirtQueue × List (ℕ × ℕ)) :=
  if virtqPaddr = 0 then none
  else
    some ({ pages with queueIndex := index },
      [(queueSel, index), (queueNum, virtqEntryNum), (queueAlign, 0), (queuePfn, virtqPaddr)])

/-- An `int` stored in a `uint16_t`. -/
def ringEntry (descIndex : ℤ) : ℕ := (descIndex % 2 ^ 16).toNat

/-- `x++` on 16 bits. -/
def inc16 (x : ℕ) : ℕ := (x + 1) % 2 ^ 16

/-- `vq->avail.ring[vq->avail.idx % VIRTQ_ENTRY_NUM] = desc_index`. -/
def writeRing (vq : VirtQueue) (descIndex : ℤ) : VirtQueue :=
  { vq with
    avail := { vq.avail with
      ring := update vq.avail.ring (slot virtqEntryNum vq.avail.idx) (ringEntry descIndex) } }

/-- `vq->avail.idx++`. -/
def bumpAvail (vq : VirtQueue) : VirtQueue :=
  { vq with avail := { vq.avail with idx := inc16 vq.avail.idx } }

/-- `vq->last_used_index++`. -/
def bumpLastUsed (vq : VirtQueue) : VirtQueue :=
  { vq with lastUsedIndex := inc16 vq.lastUsedIndex }

def virtqKick (vq : VirtQueue) (descIndex : ℤ) : VirtQueue × (ℕ × ℕ) :=
  let vq := bumpAvail (writeRing vq descIndex)
  (bumpLastUsed vq, (queueNotify, vq.queueIndex))

def virtqIsBusy (vq : VirtQueue) : ℕ := if vq.lastUsedIndex ≠ vq.usedIdx then 1 else 0

inductive KickPhase where
  | idle
  | ringWritten (descIndex : ℤ)
  | published
  | notified
  deriving DecidableEq, Repr

/-- The queue, the device's own index and what both sides have done so far: the descriptor
indices made available, those the device received, the number of finished requests. -/
structure State where
  vq : VirtQueue
  phase : KickPhase
  deviceIdx : ℕ
  kicked : List ℤ
  notifications : List (ℕ × ℕ)
  received : List ℕ
  completed : ℕ

def initial (vq : VirtQueue) : State := ⟨vq, .idle, 0, [], [], [], 0⟩

/-- A call of `virtq_kick` begins only while fewer than `VIRTQ_ENTRY_NUM` requests are
outstanding. The device takes entries up to `avail.idx` and finishes requests it has taken. -/
inductive Step : State → State → Prop where
  | kick (s d) : s.phase = .idle → s.kicked.length < s.completed + virtqEntryNum →
      Step s { s with vq := writeRing s.vq d, phase := .ringWritten d }
  | publish (s d) : s.phase = .ringWritten d →
      Step s { s with vq := bumpAvail s.vq, phase := .published, kicked := s.kicked ++ [d] }
  | notify (s) : s.phase = .published →
      Step s { s with
        phase := .notified
        notifications := s.notifications ++ [(queueNotify, s.vq.queueIndex)] }
  | count (s) : s.phase = .notified → Step s { s with vq := bumpLastUsed s.vq, phase := .idle }
  | take (s) : s.deviceIdx ≠ s.vq.avail.idx →
      Step s { s with
        deviceIdx := inc16 s.deviceIdx
        received := s.received ++ [s.vq.avail.ring (slot virtqEntryNum s.deviceIdx)] }
  | finish (s) : s.completed < s.received.length →
      Step s { s with
        vq := { s.vq with usedIdx := inc16 s.vq.usedIdx }
        completed := s.completed + 1 }

inductive Reachable : State → Prop where
  | init {virtqPaddr index vq regs} : virtqInit virtqPaddr index zeroPages = some (vq, regs) →
      Reachable (initial vq)
  | step {s t} : Reachable s → Step s t → Reachable t

/-- The four driver steps in a row are `virtq_kick`. -/
theorem steps_virtqKick (s : State) (d : ℤ) (hs : s.phase = .idle)
    (hroom : s.kicked.length < s.completed + virtqEntryNum) :
    Relation.ReflTransGen Step s { s with
      vq := (virtqKick s.vq d).1
      phase := .idle
      kicked := s.kicked ++ [d]
      notifications := s.notifications ++ [(virtqKick s.vq d).2] } := by
  have h1 := Step.kick s d hs hroom
  have h2 := Step.publish { s with vq := writeRing s.vq d, phase := .ringWritten d } d rfl
  have h3 := Step.notify { s with
    vq := bumpAvail (writeRing s.vq d)
    phase := .published
    kicked := s.kicked ++ [d] } rfl
  have h4 := Step.count { s with
    vq := bumpAvail (writeRing s.vq d)
    phase := .notified
    kicked := s.kicked ++ [d]
    notifications := s.notifications ++ [(virtqKick s.vq d).2] } rfl
  exact (((Relation.ReflTransGen.single h1).tail h2).tail h3).tail h4

def KickPhase.uncounted : KickPhase → ℕ
  | .published | .notified => 1
  | .idle | .ringWritten _ => 0

/-- The counters are the lengths of the logs modulo 2^16, and what is kicked and not yet
taken is in the ring. -/
structure Invariant (s : State) : Prop where
  window : Window s.vq.avail.ring (s.kicked.map ringEntry) s.received.length
  received : s.received = (s.kicked.map ringEntry).take s.received.length
  availIdx : s.vq.avail.idx = s.kicked.length % 2 ^ 16
  deviceIdx : s.deviceIdx = s.received.length % 2 ^ 16
  usedIdx : s.vq.usedIdx = s.completed % 2 ^ 16
  lastUsed_lt : s.vq.lastUsedIndex < 2 ^ 16
  lastUsed : (s.vq.lastUsedIndex + s.phase.uncounted) % 2 ^ 16 = s.kicked.length % 2 ^ 16
  completed_le : s.completed ≤ s.received.length
  outstanding : s.kicked.length ≤ s.completed + virtqEntryNum
  room : ∀ d, s.phase = .ringWritten d → s.kicked.length < s.completed + virtqEntryNum ∧
    s.vq.avail.ring (slot virtqEntryNum s.kicked.length) = ringEntry d

theorem inc16_mod (n : ℕ) : inc16 (n % 2 ^ 16) = (n + 1) % 2 ^ 16 := by
  unfold inc16
  omega

theorem slot_counter (n : ℕ) : slot virtqEntryNum (n % 2 ^ 16) = slot virtqEntryNum n :=
  slot_mod (by decide) n

theorem Invariant.received_le {s : State} (hi : Invariant s) :
    s.received.length ≤ s.kicked.length := by
  have h := hi.window.taken_le
  rwa [List.length_map] at h

theorem Invariant.of_buffers {s : State} (hi : Invariant s)
    (buffers : Fin virtqEntryNum → VirtqDesc) :
    Invariant { s with vq := { s.vq with buffers := buffers } } :=
  ⟨hi.window, hi.received, hi.availIdx, hi.deviceIdx, hi.usedIdx, hi.lastUsed_lt, hi.lastUsed,
    hi.completed_le, hi.outstanding, hi.room⟩

theorem initial_invariant {virtqPaddr index : ℕ} {vq : VirtQueue} {regs : List (ℕ × ℕ)}
    (h : virtqInit virtqPaddr index zeroPages = some (vq, regs)) : Invariant (initial vq) := by
  unfold virtqInit at h
  split at h
  · cases h
  · obtain ⟨rfl, -⟩ := Prod.mk.inj (Option.some.inj h)
    constructor
    · exact window_empty _
    all_goals simp [initial, zeroPages, KickPhase.uncounted]

theorem step_invariant {s t : State} (hs : Step s t) (hi : Invariant s) : Invariant t := by
  have hle := hi.received_le
  have hcl := hi.completed_le
  cases hs with
  | kick d hidle hroom =>
    have hslot : slot virtqEntryNum s.vq.avail.idx =
        slot virtqEntryNum (s.kicked.map ringEntry).length := by
      rw [hi.availIdx, slot_counter, List.length_map]
    constructor
    · simp only [writeRing, hslot]
      exact hi.window.write (by rw [List.length_map]; omega) (ringEntry d)
    · exact hi.received
    · exact hi.availIdx
    · exact hi.deviceIdx
    · exact hi.usedIdx
    · exact hi.lastUsed_lt
    · have hl := hi.lastUsed
      rw [hidle] at hl
      exact hl
    · exact hcl
    · exact hi.outstanding
    · intro e he
      obtain rfl : d = e := by simpa using he
      refine ⟨hroom, ?_⟩
      simp only [writeRing, hslot, List.length_map, update_self]
  | publish d hphase =>
    obtain ⟨hroom, hring⟩ := hi.room d hphase
    constructor
    · rw [List.map_append, List.map_singleton]
      exact hi.window.publish (by rw [List.length_map]; exact hring)
    · rw [List.map_append, List.take_append_of_le_length (by rw [List.length_map]; exact hle)]
      exact hi.received
    · simp only [bumpAvail, hi.availIdx, inc16_mod, List.length_append, List.length_singleton]
    · exact hi.deviceIdx
    · exact hi.usedIdx
    · exact hi.lastUsed_lt
    · have hl := hi.lastUsed
      rw [hphase] at hl
      simp only [KickPhase.uncounted, bumpAvail, List.length_append, List.length_singleton] at hl ⊢
      omega
    · exact hcl
    · rw [List.length_append, List.length_singleton]
      exact hroom
    · intro e he
      cases he
  | notify hphase =>
    have hl := hi.lastUsed
    rw [hphase] at hl
    exact ⟨hi.window, hi.received, hi.availIdx, hi.deviceIdx, hi.usedIdx, hi.lastUsed_lt, hl, hcl,
      hi.outstanding, fun e he => by cases he⟩
  | count hphase =>
    constructor
    · exact hi.window
    · exact hi.received
    · exact hi.availIdx
    · exact hi.deviceIdx
    · exact hi.usedIdx
    · exact Nat.mod_lt _ (by decide)
    · have hl := hi.lastUsed
      rw [hphase] at hl
      simp only [KickPhase.uncounted, bumpLastUsed, inc16] at hl ⊢
      omega
    · exact hcl
    · exact hi.outstanding
    · intro e he
      cases he
  | take hne =>
    have hlt : s.received.length < s.kicked.length := by
      refine lt_of_le_of_ne hle fun he => hne ?_
      rw [hi.deviceIdx, hi.availIdx, he]
    obtain ⟨htake, hwin⟩ := hi.window.take (by rw [List.length_map]; exact hlt)
    have hlen : (s.received ++ [s.vq.avail.ring (slot virtqEntryNum s.deviceIdx)]).length =
        s.received.length + 1 := by simp
    constructor
    · rw [hlen]
      exact hwin
    · rw [hlen, htake, ← hi.received, hi.deviceIdx, slot_counter]
    · exact hi.availIdx
    · rw [hlen, hi.deviceIdx, inc16_mod]
    · exact hi.usedIdx
    · exact hi.lastUsed_lt
    · exact hi.lastUsed
    · rw [hlen]
      exact hcl.trans (Nat.le_succ _)
    · exact hi.outstanding
    · exact hi.room
  | finish hlt =>
    constructor
    · exact hi.window
    · exact hi.received
    · exact hi.availIdx
    · exact hi.deviceIdx
    · rw [hi.usedIdx, inc16_mod]
    · exact hi.lastUsed_lt
    · exact hi.lastUsed
    · exact hlt
    · have := hi.outstanding
      dsimp only
      omega
    · intro d hd
      obtain ⟨hroom, hring⟩ := hi.room d hd
      exact ⟨by dsimp only; omega, hring⟩

theorem reachable_invariant {s : State} (hr : Reachable s) : Invariant s := by
  induction hr with
  | init h => exact initial_invariant h
  | step _ hs ih => exact step_invariant hs ih

/-- The device has received the first of the kicked entries, in order, each once; those still
to be taken are in the ring; and outside `virtq_kick` the driver knows whether all requests
are finished. -/
structure Protocol (s : State) : Prop where
  in_order : s.received <+: s.kicked.map ringEntry
  all_received : s.deviceIdx = s.vq.avail.idx ↔ s.received = s.kicked.map ringEntry
  kept : ∀ j d, s.received.length ≤ j → s.kicked[j]? = some d →
    s.vq.avail.ring (slot virtqEntryNum j) = ringEntry d
  busy : s.phase = .idle → (virtqIsBusy s.vq = 0 ↔ s.completed = s.kicked.length)

theorem ringEntry_of_lt {d : ℤ} (h0 : 0 ≤ d) (h : d < 2 ^ 16) : (ringEntry d : ℤ) = d := by
  unfold ringEntry
  omega

theorem virtqIsBusy_eq_zero (vq : VirtQueue) :
    virtqIsBusy vq = 0 ↔ vq.lastUsedIndex = vq.usedIdx := by
  unfold virtqIsBusy
  split
  · next h => simp [h]
  · next h => simpa using h

/-- Outside `virtq_kick` the two counters differ by the number of unfinished requests. -/
theorem Invariant.busy {s : State} (hi : Invariant s) (hidle : s.phase = .idle) :
    virtqIsBusy s.vq = 0 ↔ s.completed = s.kicked.length := by
  have hle := hi.received_le
  have hcl := hi.completed_le
  have hout := hi.outstanding
  have hl := hi.lastUsed
  have h16 : virtqEntryNum = 16 := rfl
  rw [hidle, KickPhase.uncounted, Nat.add_zero, Nat.mod_eq_of_lt hi.lastUsed_lt] at hl
  rw [virtqIsBusy_eq_zero, hl, hi.usedIdx, mod_eq_iff (by omega) (by omega), eq_comm]

theorem Invariant.all_taken {s : State} (hi : Invariant s) :
    s.deviceIdx = s.vq.avail.idx ↔ s.received.length = s.kicked.length := by
  have hle := hi.received_le
  have hcl := hi.completed_le
  have hout := hi.outstanding
  have h16 : virtqEntryNum = 16 := rfl
  rw [hi.deviceIdx, hi.availIdx, eq_comm, mod_eq_iff hle (by omega), eq_comm]

theorem Invariant.next_entry {s : State} (hi : Invariant s) {d : ℤ}
    (hd : s.kicked[s.received.length]? = some d) :
    s.vq.avail.ring (slot virtqEntryNum s.deviceIdx) = ringEntry d := by
  rw [hi.deviceIdx, slot_counter]
  apply hi.window.stored _ _ le_rfl
  rw [List.getElem?_map, hd]
  rfl

/-- In every state of every run, of any length, the protocol holds; and the entry of a
descriptor index is the index itself. -/
theorem virtqueue_protocol (s : State) (hr : Reachable s) :
    Protocol s ∧ ∀ d ∈ s.kicked, 0 ≤ d → d < 2 ^ 16 → (ringEntry d : ℤ) = d := by
  have hi := reachable_invariant hr
  refine ⟨⟨?_, ?_, ?_, hi.busy⟩, fun d _ h0 h => ringEntry_of_lt h0 h⟩
  · rw [hi.received]
    exact List.take_prefix _ _
  · rw [hi.all_taken]
    constructor
    · intro he
      rw [hi.received, he]
      exact List.take_of_length_le (by rw [List.length_map])
    · intro he
      rw [he, List.length_map]
  · intro j d hj hd
    refine hi.window.stored j (ringEntry d) hj ?_
    rw [List.getElem?_map, hd]
    rfl

/-- One request from kick to completion. -/
theorem virtqueue_protocol_one_request :
    ∃ s, s.kicked = [0] ∧ s.completed = 1 ∧ Protocol s := by
  let vq : VirtQueue := { zeroPages with queueIndex := 0 }
  have hinit : virtqInit 4096 0 zeroPages = some (vq, _) := rfl
  have h0 := Reachable.init hinit
  have hkick := steps_virtqKick (initial vq) 0 rfl (by decide)
  have hr : ∀ {s t}, Reachable s → Relation.ReflTransGen Step s t → Reachable t := by
    intro s t hs ht
    induction ht with
    | refl => exact hs
    | tail _ hstep ih => exact ih.step hstep
  have h1 := (hr h0 hkick).step (.take _ (by decide))
  have h2 := h1.step (.finish _ (by decide))
  exact ⟨_, rfl, rfl, (virtqueue_protocol _ h2).1⟩

end Virtqueue
