import OppoOS.AllocatorRuns

/-!
# The allocator partitions the heap and touches nothing else

Both results hold in every run whose `kalloc` calls are harmless, that is, succeed or
clear only memory below the list heads. A failing `kalloc` clears memory from address 0
upwards, and a run whose clearing reaches the heap loses half of it.
-/
namespace AllocatorPartition

open ByteMemory BuddyTiling BuddySystem BuddyAllocator AllocatorRefinement AllocatorRuns

/-- The lists in memory together with the live blocks tile the heap, and an allocation
from this state returns a block of enough pages away from every live block. -/
def PartitionHolds (h : Heap) (s : State) : Prop :=
  (∃ L : Levels, (∀ k, k ≤ maxOrder → Chain s.machine.mem (s.machine.freeLists k) (L k)) ∧
    Partition 12 h.heapStart (h.totalPages * pageSize) (s.live ++ freeBlocks L) ∧
    ∀ b ∈ s.live ++ freeBlocks L, pageSize ∣ b.addr) ∧
  ∀ n, (kalloc s.machine n).1 ≠ 0 → n ≤ 2 ^ orderForPages n ∧
    ∀ b ∈ s.live, ∀ x, b.Covers 12 x →
      ¬ Block.Covers 12 ⟨(kalloc s.machine n).1, orderForPages n⟩ x

theorem kalloc_some {h : Heap} {s : State} {L : Levels} (hi : Invariant h s L) {n : ℕ}
    (hn : (kalloc s.machine n).1 ≠ 0) :
    ∃ L', alloc 12 maxOrder L (orderForPages n) = some ((kalloc s.machine n).1, L') := by
  cases ha : alloc 12 maxOrder L (orderForPages n) with
  | none => exact absurd (by rw [hi.kalloc_none ha]) hn
  | some r => exact ⟨r.2, by rw [(hi.kalloc ha).1]⟩

theorem granted_was_free {L L' : Levels} {o a : ℕ}
    (ha : alloc 12 maxOrder L o = some (a, L')) {x : ℕ} (hx : Block.Covers 12 ⟨a, o⟩ x) :
    0 < cover (freeBlocks L) x := by
  have hc := coverage_alloc ha x
  rw [coverage_cons, if_pos hx] at hc
  simp only [cover, freeBlocks]
  omega

theorem partitionHolds_of_invariant {h : Heap} {s : State} {L : Levels}
    (hi : Invariant h s L) : PartitionHolds h s := by
  refine ⟨⟨L, hi.represents, hi.tiles.partition, hi.unit⟩, fun n hn => ?_⟩
  obtain ⟨L', ha⟩ := kalloc_some hi hn
  refine ⟨(hi.kalloc ha).2.2.1, fun b hb x hx hg => ?_⟩
  have hf := granted_was_free ha hg
  rw [hi.live_not_free hb hx] at hf
  exact absurd hf (lt_irrefl 0)

/-- The partition holds in every state of every run of harmless calls, and every free of
a live block returns. -/
theorem partition_of_harmless_run (h : Heap) (heads : ℕ) (hh : heads ≤ h.heapStart) (s : State)
    (hr : Reachable h (Harmless heads) s) :
    PartitionHolds h s ∧
      ∀ b ∈ s.live, ∃ fuel σ, kfreeOrder fuel s.machine b.addr b.order = some σ := by
  obtain ⟨L, hi⟩ := reachable_invariant hh (fun _ _ he => he) hr
  exact ⟨partitionHolds_of_invariant hi, fun b hb => hi.kfreeOrder_returns hb⟩

def smallHeap : Heap := ⟨4096, 20480, by decide, by decide, by decide, by decide⟩

def zeroMem : Mem := fun _ => 0

/-- The list heads on the NULL page: the four pages of the failing call would clear them. -/
theorem partition_after_one_page :
    let s := boot smallHeap zeroMem
    let t : State := ⟨(kalloc s.machine 1).2, grant s.live (kalloc s.machine 1).1 0⟩
    PartitionHolds smallHeap t ∧
      ∀ b ∈ t.live, ∃ fuel σ, kfreeOrder fuel t.machine b.addr b.order = some σ := by
  refine partition_of_harmless_run smallHeap 2048 (by decide) _
    (.step (e := .kalloc 1) (.boot zeroMem) (Or.inl ⟨2, ?_, by decide, ?_⟩) (.kalloc _ 1))
  · decide
  · have hi := boot_invariant smallHeap zeroMem
    rw [ne_eq, hi.represents.empty_iff (by decide)]
    decide

def twoBlockHeap : Heap := ⟨4096, 8392704, by decide, by decide, by decide, by decide⟩

def cutLevels : Levels := fun k => if k = maxOrder then [4198400] else []

theorem failing_kalloc_step {h : Heap} {s : State} {L : Levels} (hi : Invariant h s L) {n : ℕ}
    (ha : alloc 12 maxOrder L (orderForPages n) = none) : Step s (.kalloc n)
      ⟨{ s.machine with mem := memset s.machine.mem 0 0 (pageSize * n % 2 ^ 64) }, s.live⟩ := by
  have hs := Step.kalloc s n
  rwa [hi.kalloc_none ha] at hs

/-- `kalloc(1026)` fails and clears the first 1026 pages of memory; the next pointer in the
second block is among them, so the first block drops out of its list. -/
theorem failing_kalloc_cuts_list : ∃ s, Reachable twoBlockHeap (fun _ _ => True) s ∧
    s.live = [] ∧ Represents s.machine cutLevels := by
  have hb := boot_invariant twoBlockHeap zeroMem
  have hr : Reachable twoBlockHeap (fun _ _ => True) (boot twoBlockHeap zeroMem) := .boot _
  have hlive := boot_live twoBlockHeap zeroMem
  generalize boot twoBlockHeap zeroMem = s at hb hr hlive
  have hlow : ∀ k, k < maxOrder → initialLevels twoBlockHeap k = [] := by decide
  have htop : initialLevels twoBlockHeap maxOrder = [4198400, 4096] := by decide
  have hnone : alloc 12 maxOrder (initialLevels twoBlockHeap) (orderForPages 1026) = none :=
    alloc_eq_none.mpr fun j hj hK => absurd (le_trans hj hK) (by decide)
  refine ⟨_, hr.step trivial (failing_kalloc_step hb hnone), hlive, fun k hk => ?_⟩
  rcases lt_or_eq_of_le hk with hk | rfl
  · rw [cutLevels, if_neg (ne_of_lt hk)]
    exact (hb.represents.empty_iff hk.le).mpr (hlow k hk)
  · have hhead := hb.represents maxOrder le_rfl
    have hzero : load64 (memset s.machine.mem 0 0 (pageSize * 1026 % 2 ^ 64)) 4198400 = 0 :=
      load64_zero _ _ fun x hl hr => by
        rw [memset_apply, if_pos ⟨Nat.zero_le _, lt_of_lt_of_le hr (by decide)⟩]
    rw [htop] at hhead
    rw [cutLevels, if_pos rfl]
    dsimp only
    exact ⟨hhead.1, by decide, hzero⟩

theorem freeBlocks_unique {σ : Machine} {L M : Levels} (hL : Represents σ L)
    (hM : Represents σ M) : freeBlocks L = freeBlocks M := by
  unfold freeBlocks blocksOf
  refine List.flatMap_congr fun k hk => ?_
  have hle : k ≤ maxOrder := Nat.lt_succ_iff.mp (List.mem_range.mp hk)
  rw [level, level, (hL k hle).unique (hM k hle)]

/-- The first block is in no list and not live. -/
theorem failing_kalloc_loses_block :
    ∃ s, Reachable twoBlockHeap (fun _ _ => True) s ∧ ¬ PartitionHolds twoBlockHeap s := by
  obtain ⟨s, hr, hlive, hcut⟩ := failing_kalloc_cuts_list
  refine ⟨s, hr, ?_⟩
  rintro ⟨⟨L, hL, hpart, -⟩, -⟩
  obtain ⟨b, hb, hx⟩ := hpart.covered 4096 le_rfl (by decide)
  rw [hlive, freeBlocks_unique hL hcut] at hb
  have hpos : 0 < cover (freeBlocks cutLevels) 4096 := coverage_pos.mpr ⟨b, hb, hx⟩
  exact absurd hpos (by decide)

/-- What is known of a state whose free lists are to represent the levels `L`, and of the
memory after each call that may be made from it. -/
structure FramedCalls (s : State) (L : Levels) : Prop where
  chains : ∀ k, k ≤ maxOrder →
    Chain s.machine.mem (s.machine.freeLists k) (L k) ∧ (L k).Nodup
  free_not_live : ∀ x, 0 < cover (freeBlocks L) x → cover s.live x = 0
  kallocOrder_frame : ∀ o, (kallocOrder s.machine o).1 ≠ 0 →
    Frame (freeBlocks L) s.machine.mem (kallocOrder s.machine o).2.mem
  kalloc_frame : ∀ n, (kalloc s.machine n).1 ≠ 0 →
    Frame (freeBlocks L) s.machine.mem (kalloc s.machine n).2.mem
  kalloc_was_free : ∀ n, (kalloc s.machine n).1 ≠ 0 → ∀ x,
    Block.Covers 12 ⟨(kalloc s.machine n).1, orderForPages n⟩ x → 0 < cover (freeBlocks L) x
  kalloc_zero : ∀ n, (kalloc s.machine n).1 ≠ 0 → ∀ x, (kalloc s.machine n).1 ≤ x →
    x < (kalloc s.machine n).1 + n * pageSize → (kalloc s.machine n).2.mem x = 0 ∧
      Block.Covers 12 ⟨(kalloc s.machine n).1, orderForPages n⟩ x
  kfreeOrder_returns : ∀ b ∈ s.live,
    ∃ fuel σ, kfreeOrder fuel s.machine b.addr b.order = some σ
  kfreeOrder_frame : ∀ b ∈ s.live, ∀ fuel σ,
    kfreeOrder fuel s.machine b.addr b.order = some σ →
      Frame (b :: freeBlocks L) s.machine.mem σ.mem
  others_kept : ∀ b ∈ s.live, ∀ fuel σ,
    kfreeOrder fuel s.machine b.addr b.order = some σ →
      ∀ c ∈ s.live, c ≠ b → ∀ x, c.Covers 12 x → σ.mem x = s.machine.mem x

theorem framedCalls_of_invariant {h : Heap} {s : State} {L : Levels}
    (hi : Invariant h s L) : FramedCalls s L where
  chains k hk := ⟨hi.represents k hk, hi.placed_free.level_nodup hk⟩
  free_not_live x hx := by
    have ho := hi.placed.once x
    simp only [cover, coverage_append] at ho hx ⊢
    omega
  kallocOrder_frame o ho := by
    rcases hi.kallocOrder o with ⟨-, he⟩ | ⟨a, L', -, -, -, -, -, hf⟩
    · exact absurd (by rw [he]) ho
    · exact hf
  kalloc_frame n hn := by
    obtain ⟨L', ha⟩ := kalloc_some hi hn
    exact (hi.kalloc ha).2.2.2.2.1
  kalloc_was_free n hn x hx := by
    obtain ⟨L', ha⟩ := kalloc_some hi hn
    exact granted_was_free ha hx
  kalloc_zero n hn x hl hr := by
    obtain ⟨L', ha⟩ := kalloc_some hi hn
    obtain ⟨-, -, hpages, -, -, hzero⟩ := hi.kalloc ha
    have hsz : n * pageSize ≤ blockSize 12 (orderForPages n) := by
      rw [blockSize, pow_add, Nat.mul_comm]
      exact Nat.mul_le_mul_left _ hpages
    exact ⟨hzero x hl hr, hl, by simp only; omega⟩
  kfreeOrder_returns b hb := hi.kfreeOrder_returns hb
  kfreeOrder_frame b hb fuel σ hf := (hi.kfreeOrder hb hf).2
  others_kept b hb fuel σ hf c hc hne x hx := by
    refine (hi.kfreeOrder hb hf).2 x ?_
    have hfree := hi.live_not_free hc hx
    have hnb : ¬ b.Covers 12 x := fun hbx => hne (eq_of_covers (B := s.live)
      (le_trans (by simp [cover]) (hi.placed.once x)) hc hb hx hbx)
    rw [cover, coverage_cons, if_neg hnb]
    exact hfree

/-- In every run of harmless calls the lists in memory are the levels of an abstract run.
A successful allocation writes only memory that was free, a free only that and the block
being freed, so every other live block keeps its contents; the pages of a `kalloc` are
zero and lie inside the granted block. -/
theorem allocator_frame (h : Heap) (heads : ℕ) (hh : heads ≤ h.heapStart) (s : State)
    (hr : Reachable h (Harmless heads) s) :
    ∃ L, LevelReachable h L s.live ∧ FramedCalls s L := by
  obtain ⟨L, hi, hl⟩ := reachable_simulation hh (fun _ _ he => he) hr
  exact ⟨L, hl, framedCalls_of_invariant hi⟩

/-- After a block of two pages has been taken. -/
theorem allocator_frame_after_one_block :
    let s := boot smallHeap zeroMem
    let t : State := ⟨(kallocOrder s.machine 1).2, grant s.live (kallocOrder s.machine 1).1 1⟩
    ∃ L, LevelReachable smallHeap L t.live ∧ FramedCalls t L :=
  allocator_frame smallHeap 2048 (by decide) _
    (.step (e := .kallocOrder 1) (.boot zeroMem) trivial (.kallocOrder _ 1))

/-- After the cut the second block is handed out all the same, and the lists, now empty,
represent the free blocks of no abstract run. -/
theorem lists_represent_nothing_after_cut :
    ∃ s t, Reachable twoBlockHeap (fun _ _ => True) s ∧ Step s (.kallocOrder 10) t ∧
      (kallocOrder s.machine 10).1 ≠ 0 ∧
      ¬ ∃ L, LevelReachable twoBlockHeap L t.live ∧ FramedCalls t L := by
  obtain ⟨s, hr, hlive, hcut⟩ := failing_kalloc_cuts_list
  have hplaced : Placed (freeBlocks cutLevels) :=
    (boot_invariant twoBlockHeap zeroMem).placed_free.mono fun x => by
      have hinit : freeBlocks (initialLevels twoBlockHeap) = freeBlocks cutLevels ++ [⟨4096, 10⟩] := by
        decide
      rw [hinit, cover, cover, coverage_append]
      exact Nat.le_add_right _ _
  rcases kallocOrder_refines 10 hcut hplaced with ⟨hn, -⟩ | ⟨a, L', h1, h2, h3, -, h5, -⟩
  · exact absurd hn (by decide)
  have hgrant : grant s.live (kallocOrder s.machine 10).1 10 = [⟨a, 10⟩] := by
    rw [h2, hlive, grant, if_neg h3]
  refine ⟨s, _, hr, .kallocOrder s 10, h2 ▸ h3, ?_⟩
  rintro ⟨L, hreach, hframed⟩
  rw [hgrant] at hreach
  -- byte 4096 is in no block any more, but an abstract run would account for it
  have hin : cover ([⟨a, 10⟩] ++ freeBlocks L) 4096 = 1 := (levelReachable_tiles hreach).2 4096
  rw [freeBlocks_unique (fun k hk => (hframed.chains k hk).1) h5] at hin
  have hout : cover (freeBlocks cutLevels) 4096 = 0 := by decide
  exact absurd (hin.symm.trans ((coverage_alloc h1 4096).trans hout)) (by decide)

end AllocatorPartition
