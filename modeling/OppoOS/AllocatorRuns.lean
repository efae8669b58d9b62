import OppoOS.AllocatorRefinement

/-!
# Runs of the page allocator

The state pairs the machine with the blocks handed out and not yet freed. Between calls
the clients may write anything inside these. A free names a live block with its order.
-/
namespace AllocatorRuns

open ByteMemory BuddyTiling BuddySystem BuddyAllocator AllocatorRefinement Function

/-- `__free_ram` and `__free_ram_end`. -/
structure Heap where
  heapStart : ℕ
  heapEnd : ℕ
  start_pos : 0 < heapStart
  start_aligned : pageSize ∣ heapStart
  ordered : heapStart ≤ heapEnd
  end_lt : heapEnd < 2 ^ 64

def Heap.totalPages (h : Heap) : ℕ := (h.heapEnd - h.heapStart) / pageSize

structure State where
  machine : Machine
  live : List Block

inductive Event where
  | kallocOrder (order : ℕ)
  | kalloc (n : ℕ)
  | kfreeOrder (ptr order : ℕ)
  | kfreeSize (ptr bytes : ℕ)
  | client
  deriving DecidableEq, Repr

def grant (live : List Block) (ptr order : ℕ) : List Block :=
  if ptr = 0 then live else ⟨ptr, order⟩ :: live

/-- `kfree_size` may be given any byte count whose rounded-up page count has the order of
the block, hence every count that rounds up to the `n` passed to `kalloc`. -/
inductive Step : State → Event → State → Prop where
  | kallocOrder (s o) :
      Step s (.kallocOrder o) ⟨(kallocOrder s.machine o).2,
        grant s.live (kallocOrder s.machine o).1 o⟩
  | kalloc (s n) :
      Step s (.kalloc n) ⟨(kalloc s.machine n).2,
        grant s.live (kalloc s.machine n).1 (orderForPages n)⟩
  | kfreeOrder (s p o fuel σ) : ⟨p, o⟩ ∈ s.live → kfreeOrder fuel s.machine p o = some σ →
      Step s (.kfreeOrder p o) ⟨σ, s.live.erase ⟨p, o⟩⟩
  | kfreeSize (s p bytes fuel σ) :
      ⟨p, orderForPages ((bytes + pageSize - 1) / pageSize)⟩ ∈ s.live →
      kfreeSize fuel s.machine p bytes = some σ →
      Step s (.kfreeSize p bytes)
        ⟨σ, s.live.erase ⟨p, orderForPages ((bytes + pageSize - 1) / pageSize)⟩⟩
  | client (s m) : Frame s.live s.machine.mem m →
      Step s .client ⟨{ s.machine with mem := m }, s.live⟩

/-- After `init_memory` on arbitrary memory contents, with the list heads still NULL. -/
def boot (h : Heap) (m : Mem) : State :=
  ⟨initMemory ⟨m, fun _ => 0⟩ h.heapStart h.heapEnd, []⟩

@[simp] theorem boot_live (h : Heap) (m : Mem) : (boot h m).live = [] := rfl

/-- Runs all of whose events satisfy `ok` in the state they are issued in. -/
inductive Reachable (h : Heap) (ok : State → Event → Prop) : State → Prop where
  | boot (m) : Reachable h ok (boot h m)
  | step {s t e} : Reachable h ok s → ok s e → Step s e t → Reachable h ok t

def CanServe (s : State) (order : ℕ) : Prop :=
  ∃ k, order ≤ k ∧ k ≤ maxOrder ∧ s.machine.freeLists k ≠ 0

/-- A failing `kalloc n` clears memory from address 0: harmless if it ends below `heads`,
where the kernel's own memory with `free_lists` begins. The linker puts that in front of
the heap. -/
def Harmless (heads : ℕ) (s : State) : Event → Prop
  | .kalloc n => CanServe s (orderForPages n) ∨ pageSize * n % 2 ^ 64 ≤ heads
  | _ => True

def OrderCalls (_ : State) : Event → Prop
  | .kallocOrder _ | .kfreeOrder _ _ | .client => True
  | _ => False

theorem OrderCalls.harmless {heads : ℕ} {s : State} {e : Event} (hc : OrderCalls s e) :
    Harmless heads s e := by
  cases e <;> trivial

theorem Reachable.mono {h : Heap} {ok ok' : State → Event → Prop}
    (hok : ∀ s e, ok s e → ok' s e) {s : State} (hr : Reachable h ok s) :
    Reachable h ok' s := by
  induction hr with
  | boot m => exact .boot m
  | step _ he hs ih => exact ih.step (hok _ _ he) hs

def initialLevels (h : Heap) : Levels := initial 12 maxOrder h.heapStart h.totalPages

inductive LevelStep : Levels → List Block → Levels → List Block → Prop where
  | stutter (L live) : LevelStep L live L live
  | alloc {L live o a L'} : alloc 12 maxOrder L o = some (a, L') →
      LevelStep L live L' (⟨a, o⟩ :: live)
  | free {L live b} : b ∈ live →
      LevelStep L live (free 12 maxOrder L b.addr b.order) (live.erase b)

inductive LevelReachable (h : Heap) : Levels → List Block → Prop where
  | boot : LevelReachable h (initialLevels h) []
  | step {L live L' live'} : LevelReachable h L live → LevelStep L live L' live' →
      LevelReachable h L' live'

theorem levelStep_coverage {L L' : Levels} {live live' : List Block}
    (hs : LevelStep L live L' live') (ho : ∀ b ∈ live, b.order ≤ maxOrder) (x : ℕ) :
    coverage 12 (live' ++ freeBlocks L') x = coverage 12 (live ++ freeBlocks L) x := by
  cases hs with
  | stutter => rfl
  | alloc ha =>
    have hc := coverage_alloc ha x
    simp only [freeBlocks, List.cons_append, coverage_cons, coverage_append] at hc ⊢
    omega
  | @free b hb =>
    have hc : coverage 12 (freeBlocks (free 12 maxOrder L b.addr b.order)) x =
        coverage 12 (b :: freeBlocks L) x := coverage_free (ho b hb) x
    have he := coverage_erase (s := 12) hb x
    rw [coverage_append, coverage_append, hc, coverage_cons]
    omega

/-- In an abstract run the live and the free blocks always tile the heap. -/
theorem levelReachable_tiles {h : Heap} {L : Levels} {live : List Block}
    (hr : LevelReachable h L live) : (∀ b ∈ live, b.order ≤ maxOrder) ∧
      Tiles 12 h.heapStart (h.totalPages * 4096) (live ++ freeBlocks L) := by
  induction hr with
  | boot =>
    rw [List.nil_append]
    exact ⟨fun b hb => absurd hb List.not_mem_nil, initial_tiles (s := 12) _ _⟩
  | step _ hs ih =>
    refine ⟨?_, ih.2.congr (levelStep_coverage hs ih.1)⟩
    cases hs with
    | stutter => exact ih.1
    | alloc ha =>
      obtain ⟨c, rest, hoc, hc, -⟩ := alloc_shape ha
      exact List.forall_mem_cons.mpr ⟨hoc.trans hc, ih.1⟩
    | free hb => exact fun b hm => ih.1 b (List.mem_of_mem_erase hm)

structure Invariant (h : Heap) (s : State) (L : Levels) : Prop where
  represents : Represents s.machine L
  tiles : Tiles 12 h.heapStart (h.totalPages * 4096) (s.live ++ freeBlocks L)
  derived : ∀ b ∈ s.live ++ freeBlocks L, Derived 12 (freeBlocks (initialLevels h)) b
  noBuddies : NoBuddies 12 maxOrder L
  orders : ∀ b ∈ s.live, b.order ≤ maxOrder

theorem heap_end_le (h : Heap) : h.heapStart + h.totalPages * 4096 ≤ h.heapEnd := by
  have hd : h.totalPages * 4096 ≤ h.heapEnd - h.heapStart := Nat.div_mul_le_self _ _
  have := h.ordered
  omega

section
variable {h : Heap} {s : State} {L : Levels}

theorem Invariant.placed (hi : Invariant h s L) : Placed (s.live ++ freeBlocks L) :=
  placed_of_tiles hi.tiles h.start_pos (by have := heap_end_le h; have := h.end_lt; omega)

theorem Invariant.placed_free (hi : Invariant h s L) : Placed (freeBlocks L) :=
  hi.placed.mono fun x => by simp [cover]

theorem cover_release {b : Block} (hb : b ∈ s.live) (x : ℕ) :
    cover (s.live.erase b) x + cover (b :: freeBlocks L) x = cover (s.live ++ freeBlocks L) x := by
  have he := coverage_erase (s := 12) hb x
  rw [cover, cover, cover, coverage_cons, coverage_append]
  omega

theorem Invariant.placed_release (hi : Invariant h s L) {b : Block} (hb : b ∈ s.live) :
    Placed (b :: freeBlocks L) :=
  hi.placed.mono fun x => by rw [← cover_release hb]; exact Nat.le_add_left _ _

theorem Invariant.live_not_free (hi : Invariant h s L) {x : ℕ} {b : Block} (hb : b ∈ s.live)
    (hx : b.Covers 12 x) : cover (freeBlocks L) x = 0 := by
  have ho := hi.placed.once x
  have hp : 0 < cover s.live x := coverage_pos.mpr ⟨b, hb, hx⟩
  rw [cover, coverage_append] at ho
  simp only [cover] at hp ⊢
  omega

theorem Invariant.unit (hi : Invariant h s L) : ∀ b ∈ s.live ++ freeBlocks L,
    pageSize ∣ b.addr := fun b hb =>
  derived_unit (s := 12) (initial_unit h.start_aligned) (hi.derived b hb)

theorem boot_invariant (h : Heap) (m : Mem) : Invariant h (boot h m) (initialLevels h) := by
  refine ⟨?_, ?_, ?_, ?_, ?_⟩
  · have hr := (initMemory_refines ⟨m, fun _ => 0⟩ (fun _ => rfl) h.start_pos
      h.ordered h.end_lt).1
    simpa only [boot, initialLevels, Heap.totalPages] using hr
  · rw [boot_live, List.nil_append]
    exact initial_tiles (s := 12) _ _
  · intro b hb
    rw [boot_live, List.nil_append] at hb
    exact .base hb
  · exact initial_noBuddies _ _
  · intro b hb
    rw [boot_live] at hb
    cases hb

theorem client_invariant (hi : Invariant h s L) {m : Mem} (hm : Frame s.live s.machine.mem m) :
    Invariant h ⟨{ s.machine with mem := m }, s.live⟩ L where
  represents k hk := (hi.represents k hk).frame fun a ha x hl hr => by
    refine hm x (coverage_eq_zero.mpr fun b hb hx => ?_)
    have hz := hi.live_not_free hb hx
    have hsz := blockSize_ge k
    exact coverage_eq_zero.mp hz ⟨a, k⟩ (mem_freeBlocks hk ha) ⟨hl, by simp only; omega⟩
  tiles := hi.tiles
  derived := hi.derived
  noBuddies := hi.noBuddies
  orders := hi.orders

theorem alloc_invariant (hi : Invariant h s L) {o a : ℕ} {L' : Levels} {σ : Machine}
    (ha : alloc 12 maxOrder L o = some (a, L')) (ho : o ≤ maxOrder) (hσ : Represents σ L') :
    Invariant h ⟨σ, ⟨a, o⟩ :: s.live⟩ L' where
  represents := hσ
  tiles := hi.tiles.congr (levelStep_coverage (.alloc ha) hi.orders)
  derived b hb := by
    have hd := alloc_derived ha fun c hc => hi.derived c (List.mem_append_right _ hc)
    rw [List.cons_append, List.mem_cons, List.mem_append] at hb
    rcases hb with rfl | hb | hb
    · exact hd _ (by simp)
    · exact hi.derived b (List.mem_append_left _ hb)
    · exact hd b (List.mem_cons_of_mem _ hb)
  noBuddies := alloc_noBuddies ha hi.noBuddies
  orders b hb := by
    rcases List.mem_cons.mp hb with rfl | hb
    · exact ho
    · exact hi.orders b hb

theorem free_invariant (hi : Invariant h s L) {b : Block} (hb : b ∈ s.live) {σ : Machine}
    (hσ : Represents σ (free 12 maxOrder L b.addr b.order)) :
    Invariant h ⟨σ, s.live.erase b⟩ (free 12 maxOrder L b.addr b.order) where
  represents := hσ
  tiles := hi.tiles.congr (levelStep_coverage (.free hb) hi.orders)
  derived c hc := by
    rcases List.mem_append.mp hc with hc | hc
    · exact hi.derived c (List.mem_append_left _ (List.mem_of_mem_erase hc))
    · refine release_derived _ (fun d hd => ?_) (by have := hi.orders b hb; omega) c hc
      rcases List.mem_cons.mp hd with rfl | hd
      · exact hi.derived _ (List.mem_append_left _ hb)
      · exact hi.derived d (List.mem_append_right _ hd)
  noBuddies := release_noBuddies _ hi.noBuddies (by have := hi.orders b hb; omega)
  orders c hc := hi.orders c (List.mem_of_mem_erase hc)

theorem Invariant.canServe_iff (hi : Invariant h s L) (o : ℕ) :
    CanServe s o ↔ alloc 12 maxOrder L o ≠ none := by
  rw [ne_eq, alloc_eq_none]
  push Not
  constructor
  · rintro ⟨k, ho, hk, hne⟩
    exact ⟨k, ho, hk, fun he => hne ((hi.represents.empty_iff hk).mpr he)⟩
  · rintro ⟨k, ho, hk, hne⟩
    exact ⟨k, ho, hk, fun he => hne ((hi.represents.empty_iff hk).mp he)⟩

theorem Invariant.kallocOrder (hi : Invariant h s L) (o : ℕ) :
    (alloc 12 maxOrder L o = none ∧ kallocOrder s.machine o = (0, s.machine)) ∨
      ∃ a L', alloc 12 maxOrder L o = some (a, L') ∧ (kallocOrder s.machine o).1 = a ∧ a ≠ 0 ∧
        o ≤ maxOrder ∧ Invariant h ⟨(BuddyAllocator.kallocOrder s.machine o).2, ⟨a, o⟩ :: s.live⟩ L' ∧
        Frame (freeBlocks L) s.machine.mem (BuddyAllocator.kallocOrder s.machine o).2.mem := by
  rcases kallocOrder_refines o hi.represents hi.placed_free with h' | ⟨a, L', h1, h2, h3, h4, h5, h6⟩
  · exact Or.inl h'
  · exact Or.inr ⟨a, L', h1, h2, h3, h4, alloc_invariant hi h1 h4 h5, h6⟩

/-- A successful `kalloc n` returns a zeroed block of at least `n` pages. -/
theorem Invariant.kalloc (hi : Invariant h s L) {n a : ℕ} {L' : Levels}
    (ha : alloc 12 maxOrder L (orderForPages n) = some (a, L')) :
    (BuddyAllocator.kalloc s.machine n).1 = a ∧ a ≠ 0 ∧ n ≤ 2 ^ orderForPages n ∧
      Invariant h ⟨(BuddyAllocator.kalloc s.machine n).2, ⟨a, orderForPages n⟩ :: s.live⟩ L' ∧
      Frame (freeBlocks L) s.machine.mem (BuddyAllocator.kalloc s.machine n).2.mem ∧
      ∀ x, a ≤ x → x < a + n * 4096 → (BuddyAllocator.kalloc s.machine n).2.mem x = 0 := by
  rcases hi.kallocOrder (orderForPages n) with ⟨hn, -⟩ | ⟨b, M, h1, h2, h3, h4, h5, h6⟩
  · rw [hn] at ha
    cases ha
  · obtain ⟨rfl, rfl⟩ : b = a ∧ M = L' := by
      rw [h1] at ha
      simpa using ha
    have hpages : n ≤ 2 ^ orderForPages n := by
      rcases orderForPages_spec n with hs | hs
      · exact hs.1
      · omega
    have hsize : n * 4096 ≤ blockSize 12 (orderForPages n) := by
      rw [blockSize, pow_add, Nat.mul_comm]
      exact Nat.mul_le_mul_left _ hpages
    have hlen : pageSize * n % 2 ^ 64 = n * 4096 := by
      have hb := blockSize_mono (s := 12) h4
      rw [Nat.mul_comm, pageSize, Nat.mod_eq_of_lt]
      exact lt_of_le_of_lt (hsize.trans hb) (by decide)
    have hmem : ∀ x, (BuddyAllocator.kalloc s.machine n).2.mem x =
        if b ≤ x ∧ x < b + n * 4096 then 0
        else (BuddyAllocator.kallocOrder s.machine (orderForPages n)).2.mem x := by
      intro x
      simp only [BuddyAllocator.kalloc, h2, hlen]
      exact memset_apply _ _ _ _ _
    have hblk : ∀ x, b ≤ x ∧ x < b + n * 4096 → Block.Covers 12 ⟨b, orderForPages n⟩ x :=
      fun x hx => ⟨hx.1, by simp only; omega⟩
    refine ⟨h2, h3, hpages, ?_, fun x hx => ?_, fun x hl hr => ?_⟩
    · refine client_invariant h5 (m := (BuddyAllocator.kalloc s.machine n).2.mem) fun x hx => ?_
      rw [hmem x, if_neg]
      intro hc
      exact coverage_eq_zero.mp hx _ (by simp) (hblk x hc)
    · rw [hmem x, if_neg, h6 x hx]
      intro hc
      have hcov := coverage_alloc h1 x
      rw [coverage_cons, if_pos (hblk x hc)] at hcov
      simp only [cover, freeBlocks] at hx
      omega
    · rw [hmem x, if_pos ⟨hl, hr⟩]

/-- A failing `kalloc n` leaves the lists alone and clears memory from address 0. -/
theorem Invariant.kalloc_none (hi : Invariant h s L) {n : ℕ}
    (ha : alloc 12 maxOrder L (orderForPages n) = none) :
    BuddyAllocator.kalloc s.machine n =
      (0, { s.machine with mem := memset s.machine.mem 0 0 (pageSize * n % 2 ^ 64) }) := by
  rcases hi.kallocOrder (orderForPages n) with ⟨-, he⟩ | ⟨b, M, h1, -⟩
  · simp only [BuddyAllocator.kalloc, he]
  · rw [h1] at ha
    cases ha

theorem low_write_invariant (hi : Invariant h s L) {m : Mem}
    (hm : ∀ x, h.heapStart ≤ x → m x = s.machine.mem x) :
    Invariant h ⟨{ s.machine with mem := m }, s.live⟩ L where
  represents k hk := (hi.represents k hk).frame fun a ha x hl _ => by
    have hb := hi.tiles.inside (List.mem_append_right s.live (mem_freeBlocks hk ha))
    exact hm x (hb.1.trans hl)
  tiles := hi.tiles
  derived := hi.derived
  noBuddies := hi.noBuddies
  orders := hi.orders

theorem Invariant.kfreeOrder (hi : Invariant h s L) {p o fuel : ℕ} {σ : Machine}
    (hl : ⟨p, o⟩ ∈ s.live) (hf : BuddyAllocator.kfreeOrder fuel s.machine p o = some σ) :
    Invariant h ⟨σ, s.live.erase ⟨p, o⟩⟩ (free 12 maxOrder L p o) ∧
      Frame (⟨p, o⟩ :: freeBlocks L) s.machine.mem σ.mem := by
  obtain ⟨N, hN⟩ := exists_fuelled L
  obtain ⟨σ', h1, h2, h3⟩ := kfreeOrder_refines hi.represents (hi.placed_release hl)
    (hi.orders _ hl) (hN (max N fuel) (le_max_left _ _))
  have he := kfreeOrder_mono (le_max_right N fuel) hf
  rw [h1] at he
  obtain rfl : σ' = σ := by simpa using he
  exact ⟨free_invariant hi hl h2, h3⟩

theorem Invariant.kfreeOrder_returns (hi : Invariant h s L) {p o : ℕ} (hl : ⟨p, o⟩ ∈ s.live) :
    ∃ fuel σ, BuddyAllocator.kfreeOrder fuel s.machine p o = some σ := by
  obtain ⟨N, hN⟩ := exists_fuelled L
  obtain ⟨σ, h1, -⟩ := kfreeOrder_refines hi.represents (hi.placed_release hl)
    (hi.orders _ hl) (hN N le_rfl)
  exact ⟨N, σ, h1⟩

theorem pagesForBytes_eq {bytes : ℕ}
    (hb : orderForPages ((bytes + pageSize - 1) / pageSize) ≤ maxOrder) :
    pagesForBytes bytes = (bytes + pageSize - 1) / pageSize := by
  have hn : (bytes + pageSize - 1) / pageSize ≤ 2 ^ maxOrder := by
    rcases orderForPages_spec ((bytes + pageSize - 1) / pageSize) with hs | hs
    · exact hs.1.trans (Nat.pow_le_pow_right (by decide) hs.2)
    · omega
  have hlt : bytes + pageSize - 1 < 2 ^ 64 := by
    have := (Nat.div_lt_iff_lt_mul (by decide : 0 < pageSize)).mp (Nat.lt_succ_of_le hn)
    exact lt_trans this (by decide)
  rw [pagesForBytes, Nat.mod_eq_of_lt hlt]

/-- Every harmless call keeps the invariant and simulates a step on the levels. -/
theorem step_preserves_invariant {heads : ℕ} (hh : heads ≤ h.heapStart) {t : State} {e : Event}
    (hi : Invariant h s L) (he : Harmless heads s e) (hs : Step s e t) :
    ∃ L', Invariant h t L' ∧ LevelStep L s.live L' t.live := by
  cases hs with
  | kallocOrder o =>
    rcases hi.kallocOrder o with ⟨-, hn⟩ | ⟨a, L', h1, h2, h3, -, h5, -⟩
    · exact ⟨L, by simpa [hn, grant] using hi, by simpa [hn, grant] using LevelStep.stutter _ _⟩
    · exact ⟨L', by simpa [grant, h2, h3] using h5, by simpa [grant, h2, h3] using .alloc h1⟩
  | kalloc n =>
    cases ha : alloc 12 maxOrder L (orderForPages n) with
    | none =>
      have hle : pageSize * n % 2 ^ 64 ≤ heads :=
        he.resolve_left fun hc => (hi.canServe_iff _).mp hc ha
      rw [hi.kalloc_none ha]
      refine ⟨L, low_write_invariant hi fun x hx => ?_, LevelStep.stutter _ _⟩
      rw [memset_apply, if_neg (by omega)]
    | some r =>
      obtain ⟨a, L'⟩ := r
      obtain ⟨h1, h2, -, h4, -⟩ := hi.kalloc ha
      exact ⟨L', by simpa [grant, h1, h2] using h4, by simpa [grant, h1, h2] using .alloc ha⟩
  | kfreeOrder p o fuel σ hl hf => exact ⟨_, (hi.kfreeOrder hl hf).1, .free hl⟩
  | kfreeSize p bytes fuel σ hl hf =>
    rw [kfreeSize, pagesForBytes_eq (hi.orders _ hl)] at hf
    exact ⟨_, (hi.kfreeOrder hl hf).1, .free hl⟩
  | client m hm => exact ⟨L, client_invariant hi hm, .stutter _ _⟩

end

theorem reachable_simulation {h : Heap} {heads : ℕ} (hh : heads ≤ h.heapStart)
    {ok : State → Event → Prop} (hok : ∀ s e, ok s e → Harmless heads s e) {s : State}
    (hr : Reachable h ok s) :
    ∃ L, Invariant h s L ∧ LevelReachable h L s.live := by
  induction hr with
  | boot m => exact ⟨_, boot_invariant h m, .boot⟩
  | step _ he hs ih =>
    obtain ⟨L, hi, hl⟩ := ih
    obtain ⟨L', hi', hs'⟩ := step_preserves_invariant hh hi (hok _ _ he) hs
    exact ⟨L', hi', hl.step hs'⟩

theorem reachable_invariant {h : Heap} {heads : ℕ} (hh : heads ≤ h.heapStart)
    {ok : State → Event → Prop} (hok : ∀ s e, ok s e → Harmless heads s e) {s : State}
    (hr : Reachable h ok s) : ∃ L, Invariant h s L := by
  obtain ⟨L, hi, -⟩ := reachable_simulation hh hok hr
  exact ⟨L, hi⟩

end AllocatorRuns
