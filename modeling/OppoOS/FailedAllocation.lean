import OppoOS.AllocatorPartition

/-!
# Failing allocations

`kalloc` clears memory from address 0 when the allocation fails. Clearing that reaches
the heap cuts the free lists short: the blocks behind the cut are lost. An invariant for
every run, failing calls included, counts the lost blocks as blocks nobody frees.
-/
namespace FailedAllocation

open ByteMemory BuddyTiling BuddySystem BuddyAllocator AllocatorRefinement AllocatorRuns

def AnyCall (_ : State) (_ : Event) : Prop := True

/-- What is left of a free list when the memory below `len` is cleared: the first block
down there ends it. -/
def kept (len : ℕ) : List ℕ → List ℕ
  | [] => []
  | a :: l => if a < len then [a] else a :: kept len l

def dropped (len : ℕ) : List ℕ → List ℕ
  | [] => []
  | a :: l => if a < len then l else dropped len l

theorem kept_append_dropped (len : ℕ) (l : List ℕ) : kept len l ++ dropped len l = l := by
  induction l with
  | nil => rfl
  | cons a l ih =>
    unfold kept dropped
    split_ifs
    · rfl
    · rw [List.cons_append, ih]

theorem mem_of_kept {len a : ℕ} {l : List ℕ} (ha : a ∈ kept len l) : a ∈ l := by
  rw [← kept_append_dropped len l]
  exact List.mem_append_left _ ha

theorem mem_of_dropped {len a : ℕ} {l : List ℕ} (ha : a ∈ dropped len l) : a ∈ l := by
  rw [← kept_append_dropped len l]
  exact List.mem_append_right _ ha

/-- Clearing whole pages from address 0 cuts a list of page addresses. -/
theorem chain_clear {m : Mem} {len : ℕ} (hlen : pageSize ∣ len) {head : ℕ} {l : List ℕ}
    (hc : Chain m head l) (hl : ∀ a ∈ l, pageSize ∣ a) :
    Chain (memset m 0 0 len) head (kept len l) := by
  induction l generalizing head with
  | nil => exact hc
  | cons a l ih =>
    obtain ⟨rfl, h0, hrest⟩ := hc
    unfold kept
    split
    · next hlt =>
      refine ⟨rfl, h0, ?_⟩
      have hpage : head + pageSize ≤ len := by
        have hd := Nat.le_of_dvd (by omega) (Nat.dvd_sub hlen (hl head (by simp)))
        omega
      refine load64_zero _ _ fun x _ hx => ?_
      rw [memset_apply, if_pos]
      simp only [pageSize] at hpage
      omega
    · next hge =>
      refine ⟨rfl, h0, ?_⟩
      have hsame : AgreeOn m (memset m 0 0 len) head 8 := fun x hx _ => by
        rw [memset_apply, if_neg (by omega)]
      rw [load64_congr hsame]
      exact ih hrest fun a ha => hl a (List.mem_cons_of_mem _ ha)

section
variable {h : Heap} {s : State} {L : Levels}

theorem coverage_kept (len : ℕ) (L : Levels) (x : ℕ) :
    cover (freeBlocks fun k => dropped len (L k)) x +
      cover (freeBlocks fun k => kept len (L k)) x = cover (freeBlocks L) x := by
  simp only [cover, coverage_blocksOf, ← Finset.sum_add_distrib]
  refine Finset.sum_congr rfl fun k _ => ?_
  have hl := kept_append_dropped len (L k)
  conv_rhs => rw [level, ← hl, List.map_append, coverage_append]
  exact Nat.add_comm _ _

/-- Clearing whole pages from address 0 turns the blocks behind a cut into lost ones. -/
theorem clear_invariant (hi : Invariant h s L) {len : ℕ} (hlen : pageSize ∣ len) :
    Invariant h
      ⟨{ s.machine with mem := memset s.machine.mem 0 0 len },
        s.live ++ freeBlocks fun k => dropped len (L k)⟩
      fun k => kept len (L k) where
  represents k hk := chain_clear hlen (hi.represents k hk) fun a ha =>
    hi.unit ⟨a, k⟩ (List.mem_append_right _ (mem_freeBlocks hk ha))
  tiles := hi.tiles.congr fun x => by
    have hcov := coverage_kept len L x
    simp only [cover] at hcov
    rw [coverage_append, coverage_append, coverage_append, ← hcov]
    omega
  derived b hb := by
    rw [List.append_assoc, List.mem_append, List.mem_append] at hb
    rcases hb with hb | hb | hb
    · exact hi.derived b (List.mem_append_left _ hb)
    · obtain ⟨hk, ha⟩ := mem_blocksOf.mp hb
      exact hi.derived b (List.mem_append_right _ (mem_freeBlocks hk (mem_of_dropped ha)))
    · obtain ⟨hk, ha⟩ := mem_blocksOf.mp hb
      exact hi.derived b (List.mem_append_right _ (mem_freeBlocks hk (mem_of_kept ha)))
  noBuddies k hk a ha hb := hi.noBuddies k hk a (mem_of_kept ha) (mem_of_kept hb)
  orders b hb := by
    rcases List.mem_append.mp hb with hb | hb
    · exact hi.orders b hb
    · exact (mem_blocksOf.mp hb).1

theorem grant_append (live lost : List Block) (ptr order : ℕ) :
    grant (live ++ lost) ptr order = grant live ptr order ++ lost := by
  unfold grant
  split <;> rfl

theorem step_lost {t : State} {e : Event} (hs : Step s e t) (lost : List Block) :
    Step ⟨s.machine, s.live ++ lost⟩ e ⟨t.machine, t.live ++ lost⟩ := by
  cases hs with
  | kallocOrder o =>
    rw [← grant_append]
    exact .kallocOrder ⟨s.machine, s.live ++ lost⟩ o
  | kalloc n =>
    rw [← grant_append]
    exact .kalloc ⟨s.machine, s.live ++ lost⟩ n
  | kfreeOrder p o fuel σ hl hf =>
    rw [← List.erase_append_left _ hl]
    exact .kfreeOrder ⟨s.machine, s.live ++ lost⟩ p o fuel σ (List.mem_append_left _ hl) hf
  | kfreeSize p bytes fuel σ hl hf =>
    rw [← List.erase_append_left _ hl]
    exact .kfreeSize ⟨s.machine, s.live ++ lost⟩ p bytes fuel σ (List.mem_append_left _ hl) hf
  | client m hm =>
    refine .client ⟨s.machine, s.live ++ lost⟩ m fun x hx => hm x ?_
    rw [cover, coverage_append] at hx
    exact Nat.eq_zero_of_add_eq_zero_right hx

theorem kalloc_fails (hi : Invariant h s L) {n : ℕ} (hn : ¬ CanServe s (orderForPages n)) :
    kalloc s.machine n =
      (0, { s.machine with mem := memset s.machine.mem 0 0 (pageSize * n % 2 ^ 64) }) := by
  refine Invariant.kalloc_none hi ?_
  by_contra ha
  exact hn ((hi.canServe_iff _).mpr ha)

theorem cleared_pages (n : ℕ) : pageSize ∣ pageSize * n % 2 ^ 64 :=
  (Nat.dvd_mod_iff (by decide)).mpr (Nat.dvd_mul_right _ _)

theorem invariant_none_lost (hi : Invariant h s L) :
    Invariant h ⟨s.machine, s.live ++ []⟩ L := by
  rw [List.append_nil]
  exact hi

theorem step_loses {lost : List Block} {t : State} {e : Event}
    (hi : Invariant h ⟨s.machine, s.live ++ lost⟩ L) (hs : Step s e t) :
    ∃ lost' L', Invariant h ⟨t.machine, t.live ++ lost'⟩ L' := by
  by_cases he : Harmless h.heapStart ⟨s.machine, s.live ++ lost⟩ e
  · obtain ⟨L', hi', -⟩ := step_preserves_invariant le_rfl hi he (step_lost hs lost)
    exact ⟨lost, L', hi'⟩
  · cases hs with
    | kalloc n =>
      have hf := kalloc_fails (n := n) hi fun hc => he (Or.inl hc)
      have hc := clear_invariant hi (cleared_pages n)
      simp only [List.append_assoc] at hc hf
      refine ⟨lost ++ freeBlocks fun k => dropped (pageSize * n % 2 ^ 64) (L k),
        fun k => kept (pageSize * n % 2 ^ 64) (L k), ?_⟩
      rw [hf]
      exact hc
    | kallocOrder o => exact absurd trivial he
    | kfreeOrder p o fuel σ hl hf => exact absurd trivial he
    | kfreeSize p bytes fuel σ hl hf => exact absurd trivial he
    | client m hm => exact absurd trivial he

end

theorem reachable_loses {h : Heap} {s : State} (hr : Reachable h AnyCall s) :
    ∃ lost L, Invariant h ⟨s.machine, s.live ++ lost⟩ L := by
  induction hr with
  | boot m => exact ⟨[], initialLevels h, invariant_none_lost (boot_invariant h m)⟩
  | step _ _ hs ih =>
    obtain ⟨lost, L, hi⟩ := ih
    exact step_loses hi hs

theorem boot_outside (h : Heap) (m : Mem) {x : ℕ} (hx : x < h.heapStart) :
    (boot h m).machine.mem x = m x := by
  have hm := (initMemory_refines ⟨m, fun _ => 0⟩ (fun _ => rfl) h.start_pos h.ordered
    h.end_lt).2 x fun hc => absurd hc.1 (by omega)
  simpa only [boot] using hm

/-- The call returns NULL and changes neither a list head nor a byte of memory. -/
structure NoEffect (s : State) (n : ℕ) : Prop where
  null : (kalloc s.machine n).1 = 0
  heads : (kalloc s.machine n).2.freeLists = s.machine.freeLists
  bytes : ∀ x, (kalloc s.machine n).2.mem x = s.machine.mem x

theorem not_canServe_of_large (s : State) {n : ℕ} (hn : 1024 < n) :
    ¬ CanServe s (orderForPages n) := by
  rintro ⟨k, hlo, hhi, -⟩
  rcases orderForPages_spec n with ⟨hp, ho⟩ | ⟨-, ho⟩
  · have hle : 2 ^ orderForPages n ≤ 2 ^ maxOrder := Nat.pow_le_pow_right (by decide) ho
    have htop : 2 ^ maxOrder = 1024 := rfl
    omega
  · omega

theorem kalloc_clears {s : State} {n x : ℕ}
    (hf : kalloc s.machine n =
      (0, { s.machine with mem := memset s.machine.mem 0 0 (pageSize * n % 2 ^ 64) }))
    (hx : x < pageSize * n % 2 ^ 64) : (kalloc s.machine n).2.mem x = 0 := by
  rw [hf]
  exact (memset_apply ..).trans (if_pos (by omega))

theorem noEffect_iff {s : State} {n : ℕ}
    (hf : kalloc s.machine n =
      (0, { s.machine with mem := memset s.machine.mem 0 0 (pageSize * n % 2 ^ 64) })) :
    NoEffect s n ↔ ∀ x, x < pageSize * n % 2 ^ 64 → s.machine.mem x = 0 := by
  constructor
  · intro hn x hx
    rw [← hn.bytes x]
    exact kalloc_clears hf hx
  · intro hz
    constructor
    · rw [hf]
    · rw [hf]
    · intro x
      rw [hf]
      refine (memset_apply ..).trans ?_
      split
      · next hx => exact (hz x (by omega)).symm
      · rfl

/-- A failing `kalloc n` is without effect exactly when the `n` pages from address 0 it
clears, their size reduced to 64 bits, hold zeros already. -/
theorem failed_kalloc_iff (h : Heap) (s : State) (hr : Reachable h AnyCall s) (n : ℕ)
    (hn : ¬ CanServe s (orderForPages n) ∨ 1024 < n) :
    NoEffect s n ↔ ∀ x, x < pageSize * n % 2 ^ 64 → s.machine.mem x = 0 := by
  obtain ⟨lost, L, hi⟩ := reachable_loses hr
  have hc : ¬ CanServe s (orderForPages n) := by
    rcases hn with hn | hn
    · exact hn
    · exact not_canServe_of_large s hn
  exact noEffect_iff (kalloc_fails hi hc)

/-- More pages than any block has, on zeroed memory: nothing is there to be changed. -/
theorem failed_kalloc_on_zeros :
    let s := boot AllocatorPartition.smallHeap AllocatorPartition.zeroMem
    NoEffect s 1025 ↔ ∀ x, x < pageSize * 1025 % 2 ^ 64 → s.machine.mem x = 0 :=
  failed_kalloc_iff AllocatorPartition.smallHeap _ (.boot _) 1025 (Or.inr (by decide))

def onesMem : Mem := fun _ => 1

/-- Four pages of free memory cannot serve eight; the call clears byte 0 all the same. -/
theorem failing_kalloc_clears_byte :
    ∃ s, Reachable AllocatorPartition.smallHeap AnyCall s ∧ ¬ CanServe s (orderForPages 8) ∧
      (kalloc s.machine 8).1 = 0 ∧ s.machine.mem 0 = 1 ∧ (kalloc s.machine 8).2.mem 0 = 0 := by
  have hi := boot_invariant AllocatorPartition.smallHeap onesMem
  have hn : ¬ CanServe (boot AllocatorPartition.smallHeap onesMem) (orderForPages 8) := by
    rw [hi.canServe_iff, not_not]
    rfl
  have hb := boot_outside AllocatorPartition.smallHeap onesMem (x := 0) (by decide)
  have hr : Reachable AllocatorPartition.smallHeap AnyCall _ := .boot onesMem
  generalize boot AllocatorPartition.smallHeap onesMem = s at hi hn hb hr
  have hf := kalloc_fails hi hn
  refine ⟨s, hr, hn, by rw [hf], hb, ?_⟩
  exact kalloc_clears hf (by decide)

end FailedAllocation
