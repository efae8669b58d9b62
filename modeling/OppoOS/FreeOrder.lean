import OppoOS.BuddyMerging
import OppoOS.FailedAllocation
import OppoOS.AllocatorReclaim

/-!
# The order of frees

Freeing live blocks one after the other is merging them with the free blocks, so the
free lists at the end do not depend on the order of the calls.
-/
namespace FreeOrder

open BuddyTiling BuddySystem BuddyMerging BuddyAllocator AllocatorRefinement AllocatorRuns
open AllocatorReclaim FailedAllocation

def kfreeAll (fuel : ℕ) : List Block → Machine → Option Machine
  | [], σ => some σ
  | b :: bs, σ => (kfreeOrder fuel σ b.addr b.order).bind (kfreeAll fuel bs)

variable {h : Heap}

theorem kfreeOrder_next {s : State} {L : Levels} (hi : Invariant h s L) {b : Block}
    (hb : b ∈ s.live) :
    ∃ N σ, (∀ fuel, N ≤ fuel → kfreeOrder fuel s.machine b.addr b.order = some σ) ∧
      Invariant h ⟨σ, s.live.erase b⟩ (free 12 maxOrder L b.addr b.order) := by
  obtain ⟨N, σ, hf⟩ := hi.kfreeOrder_returns hb
  refine ⟨N, σ, fun fuel hle => kfreeOrder_mono hle hf, ?_⟩
  exact (hi.kfreeOrder hb hf).1

theorem kfreeAll_refines (bs : List Block) {s : State} {L : Levels} (hi : Invariant h s L)
    (hd : bs.Nodup) (hl : ∀ b ∈ bs, b ∈ s.live) :
    ∃ N σ, (∀ fuel, N ≤ fuel → kfreeAll fuel bs s.machine = some σ) ∧
      Represents σ (freeAll 12 maxOrder L bs) := by
  induction bs generalizing s L with
  | nil => exact ⟨0, s.machine, fun _ _ => rfl, hi.represents⟩
  | cons b bs ih =>
    obtain ⟨hnb, hd⟩ := List.nodup_cons.mp hd
    obtain ⟨N, σ, hf, hi'⟩ := kfreeOrder_next hi (hl b (by simp))
    have hlive : ∀ c ∈ bs, c ∈ s.live.erase b := by
      intro c hc
      have hne : c ≠ b := fun he => hnb (he ▸ hc)
      exact (List.mem_erase_of_ne hne).mpr (hl c (List.mem_cons_of_mem _ hc))
    obtain ⟨M, τ, hrest, hτ⟩ := ih hi' hd hlive
    refine ⟨max N M, τ, fun fuel hle => ?_, hτ⟩
    rw [kfreeAll, hf fuel (le_trans (le_max_left _ _) hle)]
    exact hrest fuel (le_trans (le_max_right _ _) hle)

/-- In every reachable state, freeing distinct live blocks in two orders returns and ends
with the same addresses on every free list. -/
theorem free_order_irrelevant (h : Heap) (s : State) (hr : Reachable h AnyCall s)
    (bs bs' : List Block) (hd : bs.Nodup) (hl : ∀ b ∈ bs, b ∈ s.live) (hp : bs.Perm bs') :
    ∃ N, ∀ fuel, N ≤ fuel → ∃ σ σ', kfreeAll fuel bs s.machine = some σ ∧
      kfreeAll fuel bs' s.machine = some σ' ∧ SameLists σ σ' := by
  obtain ⟨lost, L, hi⟩ := reachable_loses hr
  have hlive : ∀ b ∈ bs, b ∈ s.live ++ lost := fun b hb => List.mem_append_left _ (hl b hb)
  obtain ⟨N, σ, hf, hσ⟩ := kfreeAll_refines bs hi hd hlive
  obtain ⟨M, τ, hg, hτ⟩ := kfreeAll_refines bs' hi (hp.nodup_iff.mp hd)
    fun b hb => hlive b (hp.mem_iff.mpr hb)
  have hperm := freeAll_perm (s := 12) (K := maxOrder) hp (fun b hb => hi.orders b (hlive b hb))
    hi.noBuddies
  refine ⟨max N M, fun fuel hle => ⟨σ, τ, hf fuel (le_trans (le_max_left _ _) hle),
    hg fuel (le_trans (le_max_right _ _) hle), fun k hk => ⟨_, _, hσ k hk, hτ k hk, fun a => ?_⟩⟩⟩
  have hmem := hperm.mem_iff (a := ⟨a, k⟩)
  rw [mem_blocksOf, mem_blocksOf] at hmem
  exact (and_congr_right_iff.mp hmem) hk

/-- Two of four pages, freed in either order. -/
theorem free_order_irrelevant_two_pages :
    ∃ s, Reachable AllocatorPartition.smallHeap AnyCall s ∧
      ∃ N, ∀ fuel, N ≤ fuel → ∃ σ σ',
        kfreeAll fuel [⟨4096, 0⟩, ⟨8192, 0⟩] s.machine = some σ ∧
        kfreeAll fuel [⟨8192, 0⟩, ⟨4096, 0⟩] s.machine = some σ' ∧ SameLists σ σ' := by
  let L₀ := initialLevels AllocatorPartition.smallHeap
  let L₁ := ((alloc 12 maxOrder L₀ 0).getD (0, L₀)).2
  let L₂ := ((alloc 12 maxOrder L₁ 0).getD (0, L₁)).2
  have h0 := boot_invariant AllocatorPartition.smallHeap AllocatorPartition.zeroMem
  have ha1 : alloc 12 maxOrder L₀ 0 = some (4096, L₁) := rfl
  have ha2 : alloc 12 maxOrder L₁ 0 = some (8192, L₂) := rfl
  obtain ⟨s₁, hr1, hi1, hl1⟩ := run_kallocOrder (.boot _) h0 ha1
  obtain ⟨s₂, hr2, hi2, hl2⟩ := run_kallocOrder hr1 hi1 ha2
  have hr : Reachable AllocatorPartition.smallHeap AnyCall s₂ := hr2.mono fun _ _ _ => trivial
  refine ⟨s₂, hr, ?_⟩
  exact free_order_irrelevant _ s₂ hr _ _ (by decide) (by simp [hl2, hl1])
    (List.Perm.swap _ _ _)

end FreeOrder
