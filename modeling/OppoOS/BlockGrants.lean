import OppoOS.AllocatorPartition
import OppoOS.PageGrants

/-!
# Blocks granted beside the pages

A client of `kalloc(n)` that keeps its block for good, as the device drivers do, while the
processes take single pages.
-/
namespace BlockGrants

open ByteMemory BuddyTiling BuddySystem BuddyAllocator AllocatorRefinement AllocatorRuns
open AllocatorPartition (kalloc_some granted_was_free)
open Paging PageGrants

/-- What a successful `kalloc(n)` on the lists of `σ` returns. -/
structure BlockGranted (h : Heap) (base : List Block) (σ : Pages) (n : ℕ) (r : ℕ × Machine) :
    Prop where
  owned : Owned h (⟨r.1, orderForPages n⟩ :: base) ⟨r.2, σ.granted⟩
  enough : n ≤ 2 ^ orderForPages n
  order_le : orderForPages n ≤ maxOrder
  aligned : pageSize ∣ r.1
  inside : h.heapStart ≤ r.1 ∧
    r.1 + blockSize 12 (orderForPages n) ≤ h.heapStart + h.totalPages * 4096
  zeroed : ∀ x, r.1 ≤ x → x < r.1 + n * 4096 → r.2.mem x = 0
  unheld : ∀ x, Block.Covers 12 ⟨r.1, orderForPages n⟩ x → ¬ Held h base σ.granted x
  kept : ∀ x, Held h base σ.granted x → r.2.mem x = σ.mem x

section
variable {h : Heap} {base : List Block} {σ : Pages} {g : List ℕ}

theorem invariant_perm {m : Machine} {live live' : List Block} {L : Levels}
    (hi : Invariant h ⟨m, live⟩ L) (hp : live.Perm live') : Invariant h ⟨m, live'⟩ L where
  represents := hi.represents
  tiles := hi.tiles.congr fun x => by
    simp only [coverage_append]
    rw [coverage_perm hp]
  derived b hb := hi.derived b ((hp.append_right (freeBlocks L)).mem_iff.mpr hb)
  noBuddies := hi.noBuddies
  orders b hb := hi.orders b (hp.mem_iff.mpr hb)

theorem kalloc_block {n : ℕ} (ho : Owned h base σ) (hn : (kalloc σ.toMachine n).1 ≠ 0) :
    BlockGranted h base σ n (kalloc σ.toMachine n) := by
  obtain ⟨L, hi⟩ := ho
  obtain ⟨L', ha⟩ := kalloc_some hi hn
  obtain ⟨-, -, hpages, hinv, hframe, hzero⟩ := hi.kalloc ha
  generalize kalloc σ.toMachine n = r at hn ha hinv hframe hzero ⊢
  have hmem : (⟨r.1, orderForPages n⟩ : Block) ∈
      (⟨r.1, orderForPages n⟩ :: (pageBlocks σ.granted ++ base)) ++ freeBlocks L' := by simp
  constructor
  · exact ⟨L', invariant_perm hinv List.perm_middle.symm⟩
  · exact hpages
  · exact hinv.orders _ List.mem_cons_self
  · exact hinv.unit _ hmem
  · exact hinv.tiles.inside hmem
  · exact hzero
  · intro x hx hheld
    have hfree := granted_was_free ha hx
    rw [hheld.not_free hi] at hfree
    exact absurd hfree (lt_irrefl 0)
  · exact fun x hx => hframe x (hx.not_free hi)

theorem owned_write (ho : Owned h base σ) {m : Mem}
    (hm : ∀ x, cover base x = 0 → m x = σ.mem x) : Owned h base { σ with mem := m } := by
  obtain ⟨L, hi⟩ := ho
  refine ⟨L, client_invariant hi fun x hx => hm x ?_⟩
  simp only [cover, coverage_append] at hx ⊢
  omega

theorem kalloc_served_iff (ho : Owned h base σ) (n : ℕ) :
    (kalloc σ.toMachine n).1 ≠ 0 ↔
      ∃ k, orderForPages n ≤ k ∧ k ≤ maxOrder ∧ σ.freeLists k ≠ 0 := by
  obtain ⟨L, hi⟩ := ho
  rw [show (∃ k, orderForPages n ≤ k ∧ k ≤ maxOrder ∧ σ.freeLists k ≠ 0) ↔ _ from
    hi.canServe_iff (orderForPages n)]
  constructor
  · intro hn
    obtain ⟨L', ha⟩ := kalloc_some hi hn
    rw [ha]
    exact Option.some_ne_none _
  · intro hne
    obtain ⟨r, ha⟩ := Option.ne_none_iff_exists'.mp hne
    obtain ⟨h1, h2, -⟩ := hi.kalloc ha
    rwa [h1]

theorem freePages_block {a o : ℕ} (ho : Owned h (⟨a, o⟩ :: base) σ) :
    freePages h (⟨a, o⟩ :: base) σ.granted + 2 ^ o = freePages h base σ.granted := by
  obtain ⟨L, hi⟩ := ho
  have hmem : (⟨a, o⟩ : Block) ∈ (pageBlocks σ.granted ++ ⟨a, o⟩ :: base) ++ freeBlocks L := by
    simp
  obtain ⟨hstart, hend⟩ := hi.tiles.inside hmem
  have hsize : blockSize 12 o = 2 ^ o * 4096 := by
    rw [blockSize, Nat.add_comm, pow_add]
    rfl
  dsimp only at hstart hend
  rw [hsize] at hend
  have hpos : 0 < 2 ^ o := Nat.two_pow_pos o
  obtain ⟨j, -, hj⟩ := exists_page (h := h) (hi.unit _ hmem) (by dsimp only; omega)
  dsimp only at hj
  subst hj
  have hcons : ∀ x, cover (pageBlocks σ.granted ++ ⟨h.heapStart + j * pageSize, o⟩ :: base) x =
      cover (pageBlocks σ.granted ++ base) x +
        if Block.Covers 12 ⟨h.heapStart + j * pageSize, o⟩ x then 1 else 0 := by
    intro x
    simp only [cover, coverage_append, coverage_cons]
    omega
  have honce : ∀ x, cover (pageBlocks σ.granted ++ ⟨h.heapStart + j * pageSize, o⟩ :: base) x ≤ 1 :=
    fun x => (coverage_sublist (List.sublist_append_left _ _) x).trans (hi.placed.once x)
  have hcovers : ∀ i, Block.Covers 12 ⟨h.heapStart + j * pageSize, o⟩
      (h.heapStart + i * pageSize) ↔ j ≤ i ∧ i < j + 2 ^ o := by
    intro i
    simp only [Block.Covers, hsize, pageSize]
    omega
  have hsplit : (Finset.range h.totalPages).filter
      (fun i => cover (pageBlocks σ.granted ++ base) (h.heapStart + i * pageSize) = 0) =
      ((Finset.range h.totalPages).filter fun i =>
        cover (pageBlocks σ.granted ++ ⟨h.heapStart + j * pageSize, o⟩ :: base)
          (h.heapStart + i * pageSize) = 0) ∪ Finset.Ico j (j + 2 ^ o) := by
    ext i
    have hx := hcons (h.heapStart + i * pageSize)
    have hle := honce (h.heapStart + i * pageSize)
    simp only [hcovers] at hx
    simp only [Finset.mem_union, Finset.mem_filter, Finset.mem_range, Finset.mem_Ico]
    simp only [pageSize] at hend
    split at hx
    · next hin =>
      constructor
      · exact fun _ => .inr hin
      · exact fun _ => ⟨by omega, by omega⟩
    · next hin =>
      rw [hx, Nat.add_zero]
      exact ⟨.inl, fun hc => hc.resolve_right hin⟩
  have hdisj : Disjoint ((Finset.range h.totalPages).filter fun i =>
      cover (pageBlocks σ.granted ++ ⟨h.heapStart + j * pageSize, o⟩ :: base)
        (h.heapStart + i * pageSize) = 0) (Finset.Ico j (j + 2 ^ o)) := by
    rw [Finset.disjoint_left]
    intro i hi hin
    have hx := hcons (h.heapStart + i * pageSize)
    rw [if_pos ((hcovers i).mpr (Finset.mem_Ico.mp hin)), (Finset.mem_filter.mp hi).2] at hx
    omega
  rw [freePages, freePages, hsplit, Finset.card_union_of_disjoint hdisj, Nat.card_Ico,
    Nat.add_sub_cancel_left]

theorem pair_served (ho : Owned h base σ)
    (hf : h.totalPages / 2 + 1 < freePages h base σ.granted) :
    ∃ k, 1 ≤ k ∧ k ≤ maxOrder ∧ σ.freeLists k ≠ 0 := by
  by_contra hno
  push Not at hno
  obtain ⟨L, hi⟩ := ho
  have hempty : ∀ k, 1 ≤ k → k ≤ maxOrder → L k = [] := fun k h1 hk =>
    (hi.represents.empty_iff hk).mp (hno k h1 hk)
  obtain ⟨q, hq⟩ : ∃ q, h.heapStart = 4096 * q := h.start_aligned
  have hpage : ∀ i, i < h.totalPages →
      cover (pageBlocks σ.granted ++ base) (h.heapStart + i * 4096) = 0 →
      h.heapStart + i * 4096 ∈ L 0 := by
    intro i hlt hz
    have ht : coverage 12 (pageBlocks σ.granted ++ base ++ freeBlocks L)
        (h.heapStart + i * 4096) = _ := hi.tiles (h.heapStart + i * 4096)
    rw [if_pos (by omega), coverage_append] at ht
    simp only [cover] at hz
    have hpos : 0 < coverage 12 (freeBlocks L) (h.heapStart + i * 4096) := by omega
    obtain ⟨b, hb, hcov⟩ := coverage_pos.mp hpos
    obtain ⟨hk, hmem⟩ := mem_blocksOf.mp hb
    have hzero : b.order = 0 := by
      by_contra hne
      rw [hempty b.order (by omega) hk] at hmem
      cases hmem
    obtain ⟨r, hr⟩ : 4096 ∣ b.addr := hi.unit b (List.mem_append_right _ hb)
    rw [Block.Covers, hzero] at hcov
    have haddr : b.addr = h.heapStart + i * 4096 := by
      simp only [blockSize] at hcov
      omega
    rw [hzero, haddr] at hmem
    exact hmem
  have hcard : freePages h base σ.granted ≤ (Finset.Icc (q / 2) ((q + h.totalPages - 1) / 2)).card := by
    apply Finset.card_le_card_of_injOn fun i => (q + i) / 2
    · intro i hi'
      have hlt := Finset.mem_range.mp (Finset.mem_filter.mp hi').1
      simp only [Finset.coe_Icc, Set.mem_Icc]
      omega
    · intro i hi' j hj' heq
      obtain ⟨hil, hiz⟩ := Finset.mem_filter.mp hi'
      obtain ⟨hjl, hjz⟩ := Finset.mem_filter.mp hj'
      dsimp only at heq
      by_contra hne
      have hmi := hpage i (Finset.mem_range.mp hil) hiz
      have hmj := hpage j (Finset.mem_range.mp hjl) hjz
      refine hi.noBuddies 0 (by decide) _ hmi ?_
      have hb : buddy 12 (h.heapStart + i * 4096) 0 = h.heapStart + j * 4096 := by
        have hpar : (h.heapStart + i * 4096).testBit 12 = decide ((q + i) % 2 = 1) := by
          rw [Nat.testBit_eq_decide_div_mod_eq]
          congr 2
          omega
        rw [buddy, show blockSize 12 0 = 2 ^ 12 from rfl, xor_two_pow, hpar]
        by_cases hodd : (q + i) % 2 = 1
        · rw [if_pos (decide_eq_true hodd)]
          omega
        · rw [if_neg (by simpa using hodd)]
          omega
      rw [hb]
      exact hmj
  rw [Nat.card_Icc] at hcard
  omega

end

end BlockGrants
