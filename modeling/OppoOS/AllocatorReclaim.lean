import OppoOS.AllocatorPartition

/-!
# Coalescing: completeness of allocation and full reclaim

Both results concern runs of order-based calls. On a naturally aligned heap the free
lists are always completely coalesced. On a heap whose base is not a multiple of the
largest block that fits, the halves of a split block are not each other's buddies.
-/
namespace AllocatorReclaim

open ByteMemory BuddyTiling BuddySystem BuddyAllocator AllocatorRefinement AllocatorRuns

/-- The base is a multiple of every block size that fits into the heap. -/
def BaseAligned (h : Heap) : Prop :=
  ∀ k, k ≤ maxOrder → 2 ^ k ≤ h.totalPages → blockSize 12 k ∣ h.heapStart

def SameLists (σ σ' : Machine) : Prop :=
  ∀ k, k ≤ maxOrder → ∃ l l', Chain σ.mem (σ.freeLists k) l ∧
    Chain σ'.mem (σ'.freeLists k) l' ∧ ∀ a, a ∈ l ↔ a ∈ l'

def topBlocks : ℕ → Machine → ℕ
  | 0, _ => 0
  | n + 1, σ =>
    if (kallocOrder σ maxOrder).1 = 0 then 0
    else topBlocks n (kallocOrder σ maxOrder).2 + 1

theorem topBlocks_eq (n : ℕ) {σ : Machine} {L : Levels} (hr : Represents σ L)
    (hp : Placed (freeBlocks L)) : topBlocks n σ = min n (L maxOrder).length := by
  induction n generalizing σ L with
  | zero => simp [topBlocks]
  | succ n ih =>
    rcases kallocOrder_refines maxOrder hr hp with ⟨h1, h2⟩ | ⟨a, L', h1, h2, h3, -, h5, -⟩
    · have he := alloc_eq_none.mp h1 maxOrder le_rfl le_rfl
      simp [topBlocks, h2, he]
    · obtain ⟨c, rest, hlo, hhi, hc, -, hL'⟩ := alloc_shape h1
      obtain rfl : c = maxOrder := le_antisymm hhi hlo
      have hp' : Placed (freeBlocks L') := hp.mono fun x => by
        have hcov := coverage_alloc h1 x
        rw [coverage_cons] at hcov
        simp only [cover, freeBlocks]
        omega
      have hlen : L' maxOrder = rest := by simp [hL']
      rw [topBlocks, h2, if_neg h3, ih h5 hp', hlen, hc, List.length_cons]
      omega

section
variable {h : Heap} {s : State} {L : Levels}

theorem Invariant.natural (hi : Invariant h s L) (ha : BaseAligned h) :
    ∀ b ∈ s.live ++ freeBlocks L, Natural 12 b := fun b hb =>
  derived_natural (initial_natural ha) (hi.derived b hb)

/-- With everything freed, an aligned heap is back in its initial state. -/
theorem reclaimed_levels (hi : Invariant h s L) (ha : BaseAligned h) (hl : s.live = [])
    {k : ℕ} (hk : k ≤ maxOrder) (a : ℕ) : a ∈ L k ↔ a ∈ initialLevels h k := by
  have h0 := boot_invariant h s.machine.mem
  have ht := hi.tiles
  have ht0 := h0.tiles
  have hn := Invariant.natural hi ha
  have hn0 := Invariant.natural h0 ha
  rw [hl, List.nil_append] at ht hn
  rw [boot_live, List.nil_append] at ht0 hn0
  exact ⟨mem_of_tiles ht ht0 hn hn0 hi.noBuddies h0.noBuddies hk,
    mem_of_tiles ht0 ht hn0 hn h0.noBuddies hi.noBuddies hk⟩

theorem reclaim_of_aligned (ha : BaseAligned h) (hr : Reachable h OrderCalls s)
    (hl : s.live = []) (m : Mem) :
    SameLists s.machine (boot h m).machine ∧
      ∀ n, topBlocks n s.machine = topBlocks n (boot h m).machine := by
  obtain ⟨L, hi⟩ := reachable_invariant le_rfl (fun _ _ he => he.harmless) hr
  have h0 := boot_invariant h m
  have hmem := fun {k} (hk : k ≤ maxOrder) => reclaimed_levels hi ha hl hk
  refine ⟨fun k hk => ⟨L k, initialLevels h k, hi.represents k hk, h0.represents k hk,
    hmem hk⟩, fun n => ?_⟩
  have hperm := (List.perm_ext_iff_of_nodup (hi.placed_free.level_nodup le_rfl)
    (h0.placed_free.level_nodup le_rfl)).mpr (hmem le_rfl)
  rw [topBlocks_eq n hi.represents hi.placed_free, topBlocks_eq n h0.represents h0.placed_free,
    hperm.length_eq]

theorem live_length_le (hi : Invariant h s L) :
    s.live.length ≤ h.totalPages * 4096 := by
  have hle : ∀ x, coverage 12 s.live x ≤ 1 := fun x =>
    le_trans (by simp [cover]) (hi.placed.once x)
  have hnd : (s.live.map Block.addr).Nodup := by
    refine (nodup_of_coverage hle).map_on fun b hb c hc he => ?_
    refine eq_of_covers (hle b.addr) hb hc b.covers_addr ?_
    rw [he]
    exact c.covers_addr
  have hsub : s.live.map Block.addr ⊆ List.range' h.heapStart (h.totalPages * 4096) := by
    intro a ha
    obtain ⟨b, hb, rfl⟩ := List.mem_map.mp ha
    have hin := hi.tiles.bounds (List.mem_append_left _ hb) b.covers_addr
    exact List.mem_range'_1.mpr hin
  simpa using (List.subperm_of_subset hnd hsub).length_le

end

theorem run_kallocOrder {h : Heap} {s : State} {L L' : Levels} {o a : ℕ}
    (hr : Reachable h OrderCalls s) (hi : Invariant h s L)
    (ha : alloc 12 maxOrder L o = some (a, L')) :
    ∃ t, Reachable h OrderCalls t ∧ Invariant h t L' ∧ t.live = ⟨a, o⟩ :: s.live := by
  rcases hi.kallocOrder o with ⟨hn, -⟩ | ⟨b, M, h1, h2, h3, -, h5, -⟩
  · rw [hn] at ha
    cases ha
  · obtain ⟨rfl, rfl⟩ : b = a ∧ M = L' := by
      rw [h1] at ha
      simpa using ha
    have hg : grant s.live (kallocOrder s.machine o).1 o = ⟨b, o⟩ :: s.live := by
      rw [h2]
      exact if_neg h3
    refine ⟨_, hr.step (e := .kallocOrder o) trivial (.kallocOrder s o), ?_, hg⟩
    rw [hg]
    exact h5

theorem run_kfreeOrder {h : Heap} {s : State} {L : Levels} {b : Block}
    (hr : Reachable h OrderCalls s) (hi : Invariant h s L) (hb : b ∈ s.live) :
    ∃ t, Reachable h OrderCalls t ∧ Invariant h t (free 12 maxOrder L b.addr b.order) ∧
      t.live = s.live.erase b := by
  obtain ⟨fuel, σ, hf⟩ := hi.kfreeOrder_returns hb
  exact ⟨_, hr.step (e := .kfreeOrder b.addr b.order) trivial (.kfreeOrder s _ _ fuel σ hb hf),
    (hi.kfreeOrder hb hf).1, rfl⟩

theorem drain {h : Heap} (j n : ℕ) {s : State} {L : Levels} (hr : Reachable h OrderCalls s)
    (hi : Invariant h s L) (hj : ∀ b ∈ s.live, b.order = j)
    (hn : h.totalPages * 4096 < s.live.length + n) :
    ∃ t M, Reachable h OrderCalls t ∧ Invariant h t M ∧ (∀ b ∈ t.live, b.order = j) ∧
      alloc 12 maxOrder M j = none := by
  induction n generalizing s L with
  | zero =>
    have := live_length_le hi
    omega
  | succ n ih =>
    cases ha : alloc 12 maxOrder L j with
    | none => exact ⟨s, L, hr, hi, hj, ha⟩
    | some r =>
      obtain ⟨t, hrt, hit, hlt⟩ := run_kallocOrder hr hi ha
      refine ih hrt hit (fun b hb => ?_) (by rw [hlt, List.length_cons]; omega)
      rw [hlt] at hb
      rcases List.mem_cons.mp hb with rfl | hb
      · rfl
      · exact hj b hb

theorem free_all_capped {h : Heap} {j : ℕ} (hj : buddy 12 h.heapStart j < h.heapStart)
    {s : State} (hr : Reachable h OrderCalls s) {L : Levels} (hi : Invariant h s L)
    (hc : Capped 12 h.heapStart j (s.live ++ freeBlocks L)) :
    ∃ t M, Reachable h OrderCalls t ∧ Invariant h t M ∧ t.live = [] ∧
      Capped 12 h.heapStart j (freeBlocks M) := by
  generalize hn : s.live.length = n
  induction n generalizing s L with
  | zero =>
    have hl := List.length_eq_zero_iff.mp hn
    rw [hl, List.nil_append] at hc
    exact ⟨s, L, hr, hi, hl, hc⟩
  | succ n ih =>
    obtain ⟨b, rest, hl⟩ := List.exists_cons_of_length_eq_add_one hn
    have hb : b ∈ s.live := by simp [hl]
    obtain ⟨t, hrt, hit, hlt⟩ := run_kfreeOrder hr hi hb
    refine ih hrt hit ?_ (by rw [hlt]; simpa [hl] using hn)
    · intro c hcm hx
      rw [hlt] at hcm
      rcases List.mem_append.mp hcm with hcm | hcm
      · exact hc c (List.mem_append_left _ (List.mem_of_mem_erase hcm)) hx
      · have hsub : ∀ d ∈ ⟨b.addr, b.order⟩ :: freeBlocks L, d ∈ s.live ++ freeBlocks L := by
          intro d hd
          rcases List.mem_cons.mp hd with rfl | hd
          · exact List.mem_append_left _ hb
          · exact List.mem_append_right _ hd
        refine release_capped hj _ (fun d hd => (hi.tiles.inside (hsub d hd)).1) ?_
          (fun d hd => hc d (hsub d hd)) c hcm hx
        have := hi.orders b hb
        omega

/-- On a misaligned base some run returns every block and still loses the first one. -/
theorem reclaim_fails_of_misaligned {h : Heap} (ha : ¬ BaseAligned h) (m : Mem) :
    ∃ s, Reachable h OrderCalls s ∧ s.live = [] ∧
      ¬ SameLists s.machine (boot h m).machine := by
  unfold BaseAligned at ha
  push Not at ha
  obtain ⟨k, hk, hfit, hnd⟩ := ha
  obtain ⟨j, hjk, hbit⟩ := exists_bit (s := 12) h.start_aligned k hnd
  have hlt := buddy_lt_of_bit hbit
  obtain ⟨t, L, hrt, hi, hlive, hfail⟩ := drain j (h.totalPages * 4096 + 1) (.boot m)
    (boot_invariant h m) (fun b hb => absurd hb (by simp [boot])) (by simp [boot])
  have hempty := alloc_eq_none.mp hfail
  have hcap : Capped 12 h.heapStart j (t.live ++ freeBlocks L) := by
    intro b hb _
    rcases List.mem_append.mp hb with hb | hb
    · exact (hlive b hb).le
    · obtain ⟨hbk, hm⟩ := mem_blocksOf.mp hb
      by_contra hgt
      rw [hempty b.order (by omega) hbk] at hm
      cases hm
  obtain ⟨u, M, hru, hiu, hlu, hcu⟩ := free_all_capped hlt hrt hi hcap
  refine ⟨u, hru, hlu, fun hsame => ?_⟩
  obtain ⟨i, hki, hfirst⟩ := initial_first (s := 12) h.heapStart hk hfit
  obtain ⟨hiK, him⟩ := mem_blocksOf.mp hfirst
  obtain ⟨l, l', hl, hl', heq⟩ := hsame i hiK
  rw [hl.unique (hiu.represents i hiK), hl'.unique ((boot_invariant h m).represents i hiK)] at heq
  have hin := (heq h.heapStart).mpr him
  have hle := hcu ⟨h.heapStart, i⟩ (mem_freeBlocks hiK hin) (Block.covers_addr _)
  simp only at hle
  omega

/-- Freeing everything restores the initial lists in every run exactly when the base is a
multiple of the largest block that fits. -/
theorem full_reclaim_iff (h : Heap) (m : Mem) :
    (∀ s, Reachable h OrderCalls s → s.live = [] →
      SameLists s.machine (boot h m).machine ∧
        ∀ n, topBlocks n s.machine = topBlocks n (boot h m).machine) ↔ BaseAligned h := by
  constructor
  · intro hall
    by_contra ha
    obtain ⟨s, hr, hl, hn⟩ := reclaim_fails_of_misaligned ha m
    exact hn (hall s hr hl).1
  · exact fun ha s hr hl => reclaim_of_aligned ha hr hl m

def twoPageHeap : Heap :=
  { AllocatorPartition.smallHeap with
    heapEnd := 12288
    ordered := by decide
    end_lt := by decide }

/-- Both pages are allocated and freed again: 4096 and 8192 are not each other's buddies
(4096 XOR 4096 is 0, 8192 XOR 4096 is 12288), so the order-1 block is not restored. -/
theorem two_pages_not_reclaimed :
    ∃ s, Reachable twoPageHeap OrderCalls s ∧ s.live = [] ∧
      ¬ SameLists s.machine (boot twoPageHeap fun _ => 0).machine := by
  let L₀ := initialLevels twoPageHeap
  let L₁ := ((alloc 12 maxOrder L₀ 0).getD (0, L₀)).2
  let L₂ := ((alloc 12 maxOrder L₁ 0).getD (0, L₁)).2
  have h0 := boot_invariant twoPageHeap fun _ => 0
  have ha1 : alloc 12 maxOrder L₀ 0 = some (4096, L₁) := rfl
  have ha2 : alloc 12 maxOrder L₁ 0 = some (8192, L₂) := rfl
  obtain ⟨s₁, hr1, hi1, hl1⟩ := run_kallocOrder (.boot _) h0 ha1
  obtain ⟨s₂, hr2, hi2, hl2⟩ := run_kallocOrder hr1 hi1 ha2
  rw [hl1, boot_live] at hl2
  obtain ⟨s₃, hr3, hi3, hl3⟩ := run_kfreeOrder (b := ⟨4096, 0⟩) hr2 hi2 (by simp [hl2])
  obtain ⟨s₄, hr4, hi4, hl4⟩ := run_kfreeOrder (b := ⟨8192, 0⟩) hr3 hi3 (by simp [hl3, hl2])
  refine ⟨s₄, hr4, by simp [hl4, hl3, hl2], fun hsame => ?_⟩
  obtain ⟨l, l', hl, hl', heq⟩ := hsame 1 (by decide)
  have hinit : initialLevels twoPageHeap 1 = [4096] := by decide
  rw [hl.unique (hi4.represents 1 (by decide)), hl'.unique (h0.represents 1 (by decide)),
    hinit] at heq
  have hgone : free 12 maxOrder (free 12 maxOrder L₂ 4096 0) 8192 0 1 = [] := by decide
  have hin := (heq 4096).mpr (by simp)
  rw [hgone] at hin
  cases hin

def TopAligned (h : Heap) : Prop := blockSize 12 maxOrder ∣ h.heapStart

def Occupied (s : State) (r o : ℕ) : Prop :=
  ∃ b ∈ s.live, ∃ x, r ≤ x ∧ x < r + blockSize 12 o ∧ b.Covers 12 x

/-- On a 4 MiB aligned heap an allocation fails only when no naturally aligned run of the
size is free of live pages, and no free list holds a block together with its buddy. -/
theorem allocation_complete (h : Heap) (ha : TopAligned h) (s : State)
    (hr : Reachable h OrderCalls s) :
    (∀ o, o ≤ maxOrder → ((kallocOrder s.machine o).1 = 0 ↔
      ∀ r, blockSize 12 o ∣ r → h.heapStart ≤ r → r + blockSize 12 o ≤ h.heapEnd →
        Occupied s r o)) ∧
    ∀ k, k < maxOrder → ∃ l, Chain s.machine.mem (s.machine.freeLists k) l ∧
      ∀ a ∈ l, buddyAddr a k ∉ l := by
  obtain ⟨L, hi⟩ := reachable_invariant le_rfl (fun _ _ he => he.harmless) hr
  have hbase : BaseAligned h := fun k hk _ => (blockSize_dvd hk).trans ha
  have hnat := Invariant.natural hi hbase
  have hpart := hi.tiles.partition
  refine ⟨fun o ho => ?_, fun k hk => ⟨L k, hi.represents k hk.le, fun a ham => ?_⟩⟩
  · rcases hi.kallocOrder o with ⟨hn, he⟩ | ⟨a, L', h1, h2, h3, -⟩
    · rw [he]
      refine iff_of_true rfl fun r hd hlo hhi => ?_
      have hempty := alloc_eq_none.mp hn
      have hend : r + blockSize 12 o ≤ h.heapStart + h.totalPages * 4096 := by
        have hs : 4096 ∣ r + blockSize 12 o - h.heapStart :=
          Nat.dvd_sub (Nat.dvd_add ((blockSize_dvd (s := 12) (Nat.zero_le o)).trans hd)
            (blockSize_dvd (s := 12) (Nat.zero_le o))) h.start_aligned
        obtain ⟨q, hq⟩ := hs
        have hqt : q ≤ h.totalPages := (Nat.le_div_iff_mul_le (by decide)).mpr (by
          rw [pageSize]; omega)
        have := Nat.mul_le_mul_right 4096 hqt
        omega
      by_contra hocc
      have hr : r ∈ L o := by
        refine full_of_covered (K := maxOrder) (fun b hb => hnat b (List.mem_append_right _ hb))
          hi.noBuddies o ho hd fun x hl hlt => ?_
        obtain ⟨b, hb, hx⟩ := hpart.covered x (by omega) (by omega)
        rcases List.mem_append.mp hb with hb | hb
        · exact absurd ⟨b, hb, x, hl, hlt, hx⟩ hocc
        · refine ⟨b, hb, hx, ?_⟩
          obtain ⟨hbk, hm⟩ := mem_blocksOf.mp hb
          by_contra hgt
          rw [hempty b.order (by omega) hbk] at hm
          cases hm
      rw [hempty o le_rfl ho] at hr
      cases hr
    · rw [h2]
      refine iff_of_false h3 fun hall => ?_
      obtain ⟨c, rest, hoc, hcK, hc, -⟩ := alloc_shape h1
      have hblk : (⟨a, c⟩ : Block) ∈ s.live ++ freeBlocks L :=
        List.mem_append_right _ (mem_freeBlocks hcK (by simp [hc]))
      have hin := hi.tiles.inside hblk
      have hle := blockSize_mono (s := 12) hoc
      have hheap := heap_end_le h
      simp only at hin
      obtain ⟨b, hb, x, hl, hlt, hx⟩ := hall a ((blockSize_dvd hoc).trans (hnat _ hblk))
        hin.1 (by omega)
      have hfree := hi.live_not_free hb hx
      exact coverage_eq_zero.mp hfree ⟨a, c⟩ (mem_freeBlocks hcK (by simp [hc]))
        ⟨hl, by simp only; omega⟩
  · rw [buddyAddr_eq]
    exact hi.noBuddies k hk a ham

def alignedHeap : Heap := ⟨4194304, 4206592, by decide, by decide, by decide, by decide⟩

theorem allocation_complete_after_one :
    let s := boot alignedHeap fun _ => 0
    let t : State := ⟨(kallocOrder s.machine 1).2, grant s.live (kallocOrder s.machine 1).1 1⟩
    (∀ o, o ≤ maxOrder → ((kallocOrder t.machine o).1 = 0 ↔
      ∀ r, blockSize 12 o ∣ r → 4194304 ≤ r → r + blockSize 12 o ≤ 4206592 →
        Occupied t r o)) ∧
    ∀ k, k < maxOrder → ∃ l, Chain t.machine.mem (t.machine.freeLists k) l ∧
      ∀ a ∈ l, buddyAddr a k ∉ l :=
  allocation_complete alignedHeap (show blockSize 12 maxOrder ∣ 4194304 by decide) _
    (.step (e := .kallocOrder 1) (.boot _) trivial (.kallocOrder _ 1))

end AllocatorReclaim
