import OppoOS.AllocatorReclaim
import OppoOS.BuddyCanonical
import OppoOS.FailedAllocation

/-!
# What the free lists remember

On a naturally aligned heap the free lists record nothing but which bytes are live: two
runs with the same live bytes end with the same lists, whatever blocks these bytes were
handed out as. Freeing the block just allocated restores the lists, node for node, under
an exact condition on its address.
-/
namespace AllocatorHistory

open ByteMemory BuddyTiling BuddySystem BuddyAllocator AllocatorRefinement AllocatorRuns
open AllocatorReclaim BuddyCanonical FailedAllocation

def LiveAt (s : State) (x : ℕ) : Prop := ∃ b ∈ s.live, b.Covers 12 x

def SameChains (σ σ' : Machine) : Prop :=
  ∀ k, k ≤ maxOrder → ∀ l, Chain σ.mem (σ.freeLists k) l ↔ Chain σ'.mem (σ'.freeLists k) l

/-- The page count in binary: the top list holds every whole block of the largest order, in
descending order, and each lower list one block or none, by its bit. -/
structure Binary (h : Heap) (σ : Machine) : Prop where
  top : Chain σ.mem (σ.freeLists maxOrder) (((List.range (h.totalPages / 2 ^ maxOrder)).map
    fun i => h.heapStart + i * blockSize 12 maxOrder).reverse)
  low : ∀ k, k < maxOrder → Chain σ.mem (σ.freeLists k)
    (if h.totalPages.testBit k then
      [h.heapStart + h.totalPages / 2 ^ (k + 1) * blockSize 12 (k + 1)] else [])

section
variable {h : Heap} {s t : State} {L M : Levels}

theorem canonical_levels (hi : Invariant h s L) (ha : BaseAligned h) :
    Canonical 12 maxOrder L where
  once := hi.placed_free.once
  natural b hb := Invariant.natural hi ha b (List.mem_append_right _ hb)
  merged := hi.noBuddies

theorem free_iff (hi : Invariant h s L) (x : ℕ) :
    0 < coverage 12 (freeBlocks L) x ↔
      (h.heapStart ≤ x ∧ x < h.heapStart + h.totalPages * 4096) ∧ ¬ LiveAt s x := by
  have ht := hi.tiles x
  rw [coverage_append] at ht
  have hl : LiveAt s x ↔ 0 < coverage 12 s.live x := coverage_pos.symm
  rw [hl]
  by_cases hx : h.heapStart ≤ x ∧ x < h.heapStart + h.totalPages * 4096
  · rw [if_pos hx] at ht
    simp only [hx, true_and]
    omega
  · rw [if_neg hx] at ht
    simp only [hx, false_and, iff_false]
    omega

theorem live_iff (hi : Invariant h s L) (x : ℕ) :
    LiveAt s x ↔ (h.heapStart ≤ x ∧ x < h.heapStart + h.totalPages * 4096) ∧
      ¬ 0 < coverage 12 (freeBlocks L) x := by
  rw [free_iff hi x]
  constructor
  · rintro ⟨b, hb, hx⟩
    exact ⟨hi.tiles.bounds (List.mem_append_left _ hb) hx, fun hn => hn.2 ⟨b, hb, hx⟩⟩
  · rintro ⟨hin, hn⟩
    by_contra hlive
    exact hn ⟨hin, hlive⟩

theorem sameLists_iff {σ σ' : Machine} (hσ : Represents σ L)
    (hσ' : Represents σ' M) :
    SameLists σ σ' ↔ ∀ k, k ≤ maxOrder → ∀ a, a ∈ L k ↔ a ∈ M k := by
  constructor
  · intro hsame k hk
    obtain ⟨l, l', hl, hl', heq⟩ := hsame k hk
    rwa [hl.unique (hσ k hk), hl'.unique (hσ' k hk)] at heq
  · exact fun heq k hk => ⟨L k, M k, hσ k hk, hσ' k hk, heq k hk⟩

theorem sameChains_iff {σ σ' : Machine} (hσ : Represents σ L)
    (hσ' : Represents σ' M) :
    SameChains σ σ' ↔ ∀ k, k ≤ maxOrder → M k = L k := by
  constructor
  · exact fun hsame k hk => (hσ' k hk).unique ((hsame k hk _).mp (hσ k hk))
  · intro heq k hk l
    constructor
    · intro hl
      rw [hl.unique (hσ k hk), ← heq k hk]
      exact hσ' k hk
    · intro hl
      rw [hl.unique (hσ' k hk), heq k hk]
      exact hσ k hk

theorem live_of_sameLists (hs : Invariant h s L) (ht : Invariant h t M)
    (hsame : SameLists s.machine t.machine) (x : ℕ) : LiveAt s x ↔ LiveAt t x := by
  have hmem := (sameLists_iff hs.represents ht.represents).mp hsame
  rw [live_iff hs, live_iff ht, freeBlocks, freeBlocks, coverage_of_mem hmem]

theorem sameLists_of_live (ha : BaseAligned h) (hs : Invariant h s L) (ht : Invariant h t M)
    (hlive : ∀ x, LiveAt s x ↔ LiveAt t x) : SameLists s.machine t.machine := by
  refine (sameLists_iff hs.represents ht.represents).mpr fun k hk => ?_
  refine canonical_ext (canonical_levels hs ha) (canonical_levels ht ha) (fun x => ?_) hk
  rw [← freeBlocks, ← freeBlocks, free_iff hs, free_iff ht, hlive x]

theorem empty_up_to (hi : Invariant h s L) {o a : ℕ} {L' : Levels}
    (ha : alloc 12 maxOrder L o = some (a, L')) {j : ℕ} :
    (∀ i, o ≤ i → i ≤ j → L i = []) ↔ ∀ i, o ≤ i → i ≤ j → s.machine.freeLists i = 0 := by
  obtain ⟨c, rest, hoc, hcK, hc, -⟩ := alloc_shape ha
  have hne : s.machine.freeLists c ≠ 0 := by
    rw [ne_eq, hi.represents.empty_iff hcK, hc]
    exact List.cons_ne_nil _ _
  constructor
  · intro hall i hoi hij
    have hjc : j < c := by
      by_contra hge
      rw [hall c hoc (by omega)] at hc
      cases hc
    exact (hi.represents.empty_iff (by omega)).mpr (hall i hoi hij)
  · intro hall i hoi hij
    have hjc : j < c := by
      by_contra hge
      exact hne (hall c hoc (by omega))
    exact (hi.represents.empty_iff (by omega)).mp (hall i hoi hij)

end

/-- The free lists are a function of the live bytes exactly on the heaps whose base is a
multiple of every block size that fits. The runs are those whose `kalloc` calls succeed or
clear only memory below the list heads. -/
theorem lists_determined_iff (h : Heap) (heads : ℕ) (hh : heads ≤ h.heapStart) :
    (∀ s t, Reachable h (Harmless heads) s → Reachable h (Harmless heads) t →
      (SameLists s.machine t.machine ↔ ∀ x, LiveAt s x ↔ LiveAt t x)) ↔ BaseAligned h := by
  constructor
  · intro hall
    by_contra ha
    obtain ⟨s, hr, hl, hn⟩ := reclaim_fails_of_misaligned ha fun _ => 0
    refine hn ((hall s _ (hr.mono fun _ _ he => he.harmless) (.boot _)).mpr fun x => ?_)
    simp [LiveAt, hl]
  · intro ha s t hs ht
    obtain ⟨L, hi⟩ := reachable_invariant hh (fun _ _ he => he) hs
    obtain ⟨M, hj⟩ := reachable_invariant hh (fun _ _ he => he) ht
    exact ⟨live_of_sameLists hi hj, sameLists_of_live ha hi hj⟩

/-- The first two of three pages, taken as one block or page by page with the third page
given back: the lists are the same. -/
theorem lists_after_two_ways :
    ∃ s t, Reachable alignedHeap (Harmless 4096) s ∧ Reachable alignedHeap (Harmless 4096) t ∧
      s.live = [⟨4194304, 1⟩] ∧ t.live = [⟨4198400, 0⟩, ⟨4194304, 0⟩] ∧
      SameLists s.machine t.machine := by
  let L₀ := initialLevels alignedHeap
  let L₁ := ((alloc 12 maxOrder L₀ 1).getD (0, L₀)).2
  let M₁ := ((alloc 12 maxOrder L₀ 0).getD (0, L₀)).2
  let M₂ := ((alloc 12 maxOrder M₁ 0).getD (0, M₁)).2
  let M₃ := ((alloc 12 maxOrder M₂ 0).getD (0, M₂)).2
  have h0 := boot_invariant alignedHeap fun _ => 0
  have ha : alloc 12 maxOrder L₀ 1 = some (4194304, L₁) := rfl
  have ha1 : alloc 12 maxOrder L₀ 0 = some (4202496, M₁) := rfl
  have ha2 : alloc 12 maxOrder M₁ 0 = some (4194304, M₂) := rfl
  have ha3 : alloc 12 maxOrder M₂ 0 = some (4198400, M₃) := rfl
  obtain ⟨s, hrs, -, hls⟩ := run_kallocOrder (.boot _) h0 ha
  obtain ⟨t₁, hr1, hi1, hl1⟩ := run_kallocOrder (.boot _) h0 ha1
  obtain ⟨t₂, hr2, hi2, hl2⟩ := run_kallocOrder hr1 hi1 ha2
  obtain ⟨t₃, hr3, hi3, hl3⟩ := run_kallocOrder hr2 hi2 ha3
  obtain ⟨t, hrt, -, hlt⟩ := run_kfreeOrder (b := ⟨4202496, 0⟩) hr3 hi3 (by simp [hl3, hl2, hl1])
  rw [boot_live] at hls hl1
  have ht : t.live = [⟨4198400, 0⟩, ⟨4194304, 0⟩] := by simp [hlt, hl3, hl2, hl1]
  have hs' : Reachable alignedHeap (Harmless 4096) s := hrs.mono fun _ _ he => he.harmless
  have ht' : Reachable alignedHeap (Harmless 4096) t := hrt.mono fun _ _ he => he.harmless
  have haligned : BaseAligned alignedHeap := fun k hk _ =>
    (blockSize_dvd hk).trans (show blockSize 12 maxOrder ∣ 4194304 by decide)
  refine ⟨s, t, hs', ht', hls, ht, ?_⟩
  refine ((lists_determined_iff alignedHeap 4096 (by decide)).mpr haligned s t hs' ht').mpr fun x => ?_
  simp only [LiveAt, hls, ht, List.mem_cons, List.not_mem_nil, or_false, exists_eq_left,
    exists_eq_or_imp, Block.Covers, blockSize]
  omega

/-- Freeing the block just allocated returns, and restores every list node for node
exactly when the address has a zero bit for each order that had to be split off. -/
theorem free_after_alloc_iff (h : Heap) (s : State) (hr : Reachable h AnyCall s)
    (order : ℕ) (hp : (kallocOrder s.machine order).1 ≠ 0) :
    ∃ N, ∀ fuel, N ≤ fuel → ∃ σ,
      kfreeOrder fuel (kallocOrder s.machine order).2 (kallocOrder s.machine order).1 order =
        some σ ∧
      (SameChains s.machine σ ↔ ∀ j, order ≤ j →
        (∀ i, order ≤ i → i ≤ j → s.machine.freeLists i = 0) →
        (kallocOrder s.machine order).1.testBit (12 + j) = false) := by
  obtain ⟨lost, L, hi⟩ := reachable_loses hr
  rcases hi.kallocOrder order with ⟨-, hn⟩ | ⟨a, L', h1, h2, -, ho, h5, -⟩
  · rw [hn] at hp
    exact absurd rfl hp
  · rw [h2]
    have hlive : (⟨a, order⟩ : Block) ∈ ⟨a, order⟩ :: (s.live ++ lost) := List.mem_cons_self
    obtain ⟨N, σ, hf⟩ := h5.kfreeOrder_returns hlive
    refine ⟨N, fun fuel hle => ⟨σ, kfreeOrder_mono hle hf, ?_⟩⟩
    rw [sameChains_iff hi.represents (h5.kfreeOrder hlive hf).1.represents,
      free_alloc_iff h1 hi.noBuddies]
    exact forall_congr' fun j => forall_congr' fun _ => imp_congr (empty_up_to hi h1) Iff.rfl

/-- One page of the four pages from 4096 on: nothing is split, and the lists come back. -/
theorem free_after_alloc_first_page :
    let s := boot AllocatorPartition.smallHeap AllocatorPartition.zeroMem
    (kallocOrder s.machine 0).1 ≠ 0 ∧
      ∃ N, ∀ fuel, N ≤ fuel → ∃ σ,
        kfreeOrder fuel (kallocOrder s.machine 0).2 (kallocOrder s.machine 0).1 0 = some σ ∧
        (SameChains s.machine σ ↔ ∀ j, 0 ≤ j →
          (∀ i, 0 ≤ i → i ≤ j → s.machine.freeLists i = 0) →
          (kallocOrder s.machine 0).1.testBit (12 + j) = false) := by
  intro s
  have hp : (kallocOrder s.machine 0).1 ≠ 0 := by
    have hi := boot_invariant AllocatorPartition.smallHeap AllocatorPartition.zeroMem
    rcases hi.kallocOrder 0 with ⟨hn, -⟩ | ⟨a, L', -, h2, h3, -⟩
    · exact absurd hn (by decide)
    · rw [h2]
      exact h3
  exact ⟨hp, free_after_alloc_iff _ s (.boot _) 0 hp⟩

theorem initial_chains (h : Heap) {σ : Machine} (hr : Represents σ (initialLevels h)) :
    Binary h σ where
  top := by
    have htop := hr maxOrder le_rfl
    rwa [initialLevels, initial_apply _ _ le_rfl, filled, if_pos rfl] at htop
  low k hk := by
    have hlow := hr k hk.le
    rw [initialLevels, initial_apply _ _ hk.le, filled, if_neg (by omega)] at hlow
    simpa only [Nat.testBit_eq_decide_div_mod_eq, decide_eq_true_eq] using hlow

/-- `init_memory` leaves the lists of the binary representation, on every heap. -/
theorem init_memory_lists (h : Heap) (m : Mem) : Binary h (boot h m).machine :=
  initial_chains h (boot_invariant h m).represents

end AllocatorHistory
