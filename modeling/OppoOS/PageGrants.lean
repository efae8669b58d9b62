import OppoOS.AllocatorRuns
import OppoOS.Paging

/-!
# Pages granted by the allocator

The allocator as the users of `kalloc(1)` see it: a page nobody holds, zeroed, or NULL when
no page of the heap is free.
-/
namespace PageGrants

open ByteMemory BuddyTiling BuddySystem BuddyAllocator AllocatorRefinement AllocatorRuns
open Paging

abbrev InPage (a x : ℕ) : Prop := a ≤ x ∧ x < a + pageSize

def pageBlocks (g : List ℕ) : List Block := g.map fun a => ⟨a, 0⟩

/-- The allocator's invariant, with the granted pages and the blocks of other clients. -/
def Owned (h : Heap) (base : List Block) (σ : Pages) : Prop :=
  ∃ L, Invariant h ⟨σ.toMachine, pageBlocks σ.granted ++ base⟩ L

/-- Bytes the allocator will not touch: outside the heap or in a block handed out. -/
def Held (h : Heap) (base : List Block) (g : List ℕ) (x : ℕ) : Prop :=
  ¬ (h.heapStart ≤ x ∧ x < h.heapStart + h.totalPages * 4096) ∨
    0 < cover (pageBlocks g ++ base) x

def freePages (h : Heap) (base : List Block) (g : List ℕ) : ℕ :=
  ((Finset.range h.totalPages).filter fun i =>
    cover (pageBlocks g ++ base) (h.heapStart + i * pageSize) = 0).card

section
variable {h : Heap} {base : List Block} {σ : Pages} {g : List ℕ}

theorem covers_page {a x : ℕ} : Block.Covers 12 ⟨a, 0⟩ x ↔ InPage a x := by
  simp [Block.Covers, blockSize, pageSize]

theorem cover_cons_page (a : ℕ) (g : List ℕ) (base : List Block) (x : ℕ) :
    cover (pageBlocks (a :: g) ++ base) x =
      cover (pageBlocks g ++ base) x + if InPage a x then 1 else 0 := by
  rw [show pageBlocks (a :: g) ++ base = ⟨a, 0⟩ :: (pageBlocks g ++ base) from rfl, cover,
    coverage_cons]
  simp only [covers_page]

theorem exists_page {a : ℕ} (ha : pageSize ∣ a)
    (hin : h.heapStart ≤ a ∧ a < h.heapStart + h.totalPages * 4096) :
    ∃ i, i < h.totalPages ∧ a = h.heapStart + i * pageSize := by
  obtain ⟨q, hq⟩ := ha
  obtain ⟨r, hr⟩ := h.start_aligned
  refine ⟨q - r, ?_, ?_⟩
  all_goals
    simp only [pageSize] at hq hr ⊢
    omega

theorem held_of_granted {a x : ℕ} (ha : a ∈ g) (hx : InPage a x) : Held h base g x := by
  apply Or.inr
  refine coverage_pos.mpr ⟨⟨a, 0⟩, ?_, covers_page.mpr hx⟩
  exact List.mem_append_left _ (List.mem_map.mpr ⟨a, ha, rfl⟩)

theorem Held.append {x : ℕ} (l : List ℕ) (hx : Held h base g x) : Held h base (l ++ g) x := by
  rcases hx with hx | hx
  · exact Or.inl hx
  · apply Or.inr
    simp only [cover, pageBlocks, List.map_append, coverage_append] at hx ⊢
    omega

theorem Held.not_free {L : Levels} {m : Machine} {x : ℕ} (hx : Held h base g x)
    (hi : Invariant h ⟨m, pageBlocks g ++ base⟩ L) : cover (freeBlocks L) x = 0 := by
  have ht := hi.tiles x
  simp only [freeBlocks, coverage_append] at ht
  simp only [cover, freeBlocks]
  rcases hx with hx | hx
  · rw [if_neg hx] at ht
    omega
  · simp only [cover, coverage_append] at hx
    split at ht <;> omega

structure PageGranted (h : Heap) (base : List Block) (σ : Pages) (r : ℕ × Pages) : Prop where
  owned : Owned h base r.2
  aligned : pageSize ∣ r.1
  inside : h.heapStart ≤ r.1 ∧ r.1 + pageSize ≤ h.heapEnd
  zeroed : ∀ x, InPage r.1 x → r.2.mem x = 0
  unheld : ∀ x, InPage r.1 x → ¬ Held h base σ.granted x
  kept : ∀ x, Held h base σ.granted x → r.2.mem x = σ.mem x

/-- A page allocator: what it returns is recorded, and is a fresh zeroed page or NULL. -/
structure PageAllocator (h : Heap) (base : List Block) (kalloc : Pages → ℕ × Pages) :
    Prop where
  recorded : ∀ σ, (kalloc σ).2.granted = (kalloc σ).1 :: σ.granted
  serves : ∀ σ, Owned h base σ → ((kalloc σ).1 = 0 ↔ freePages h base σ.granted = 0)
  grants : ∀ σ, Owned h base σ → (kalloc σ).1 ≠ 0 → PageGranted h base σ (kalloc σ)

theorem kallocPage_spec (ho : Owned h base σ) (hn : (kallocPage σ).1 ≠ 0) :
    PageGranted h base σ (kallocPage σ) := by
  obtain ⟨L, hi⟩ := ho
  have horder : orderForPages 1 = 0 := by decide
  cases ha : alloc 12 maxOrder L (orderForPages 1) with
  | none =>
    refine absurd ?_ hn
    rw [kallocPage_page, hi.kalloc_none ha]
  | some r =>
    obtain ⟨a, L'⟩ := r
    obtain ⟨h1, -, -, h4, h5, h6⟩ := hi.kalloc ha
    rw [horder] at ha h4
    have hpage : (kallocPage σ).1 = a := (kallocPage_page σ).trans h1
    have hmem : (⟨a, 0⟩ : Block) ∈ (⟨a, 0⟩ :: (pageBlocks σ.granted ++ base)) ++ freeBlocks L' :=
      List.mem_append_left _ (by simp)
    have hcov := coverage_alloc ha
    refine ⟨⟨L', ?_⟩, ?_, ?_, ?_, ?_, ?_⟩
    · rw [kallocPage_granted, hpage, kallocPage_machine]
      exact h4
    · rw [hpage]
      exact h4.unit _ hmem
    · rw [hpage]
      obtain ⟨hl, hr⟩ := h4.tiles.inside hmem
      have hsz : blockSize 12 0 = pageSize := rfl
      have hend := heap_end_le h
      simp only [hsz] at hl hr
      exact ⟨hl, hr.trans hend⟩
    · intro x hx
      rw [hpage] at hx
      rw [kallocPage_machine]
      exact h6 x hx.1 (by simpa [pageSize] using hx.2)
    · intro x hx hheld
      rw [hpage] at hx
      have hf := hheld.not_free hi
      have hc := hcov x
      rw [coverage_cons, if_pos (covers_page.mpr hx)] at hc
      simp only [cover, freeBlocks] at hf
      omega
    · intro x hx
      rw [kallocPage_machine]
      exact h5 x (hx.not_free hi)

theorem levels_empty_iff {m : Machine} {L : Levels}
    (hi : Invariant h ⟨m, pageBlocks g ++ base⟩ L) :
    (∀ k, k ≤ maxOrder → L k = []) ↔ freePages h base g = 0 := by
  have hcov : ∀ x, cover (pageBlocks g ++ base) x + cover (freeBlocks L) x =
      if h.heapStart ≤ x ∧ x < h.heapStart + h.totalPages * 4096 then 1 else 0 := by
    intro x
    rw [cover, cover, ← coverage_append]
    exact hi.tiles x
  rw [freePages, Finset.card_eq_zero, Finset.filter_eq_empty_iff]
  constructor
  · intro he i hm hz
    have hlt := Finset.mem_range.mp hm
    have hnil : cover (freeBlocks L) (h.heapStart + i * pageSize) = 0 := by
      apply coverage_eq_zero.mpr
      intro b hb _
      obtain ⟨hk, hmem⟩ := mem_blocksOf.mp hb
      rw [he _ hk] at hmem
      cases hmem
    have hx := hcov (h.heapStart + i * pageSize)
    rw [hz, hnil, if_pos (by simp only [pageSize]; omega)] at hx
    cases hx
  · intro he k hk
    by_contra hne
    obtain ⟨a, l, hl⟩ := List.exists_cons_of_ne_nil hne
    have hmem : (⟨a, k⟩ : Block) ∈ freeBlocks L :=
      mem_freeBlocks hk (by rw [hl]; exact List.mem_cons_self)
    have hin := hi.tiles.inside (List.mem_append_right (pageBlocks g ++ base) hmem)
    have hpos : 0 < cover (freeBlocks L) a :=
      coverage_pos.mpr ⟨⟨a, k⟩, hmem, Block.covers_addr _⟩
    have hsize := blockSize_ge k
    simp only at hin
    obtain ⟨i, hlt, hai⟩ := exists_page (h := h) (a := a)
      (hi.unit _ (List.mem_append_right (pageBlocks g ++ base) hmem)) (by omega)
    refine he (Finset.mem_range.mpr hlt) ?_
    have hx := hcov a
    rw [if_pos (by omega)] at hx
    rw [← hai]
    omega

theorem kallocPage_serves (ho : Owned h base σ) :
    (kallocPage σ).1 = 0 ↔ freePages h base σ.granted = 0 := by
  obtain ⟨L, hi⟩ := ho
  have horder : orderForPages 1 = 0 := by decide
  rw [← levels_empty_iff hi]
  constructor
  · intro h0
    cases ha : alloc 12 maxOrder L (orderForPages 1) with
    | none => exact fun k hk => alloc_eq_none.mp ha k (by omega) hk
    | some r =>
      obtain ⟨h1, h2, -⟩ := hi.kalloc ha
      rw [kallocPage_page] at h0
      exact absurd (h1.symm.trans h0) h2
  · intro he
    rw [kallocPage_page, hi.kalloc_none (alloc_eq_none.mpr fun k _ hk => he k hk)]

theorem kallocPage_allocator (h : Heap) (base : List Block) :
    PageAllocator h base kallocPage :=
  ⟨kallocPage_granted, fun _ => kallocPage_serves, fun _ => kallocPage_spec⟩

theorem freePages_nil (h : Heap) : freePages h [] [] = h.totalPages := by
  simp [freePages, pageBlocks, cover]

theorem owned_boot (h : Heap) (m : Mem) : Owned h [] ⟨(boot h m).machine, []⟩ := by
  have hi := boot_invariant h m
  have hlive : (boot h m).live = [] := by rw [boot]
  generalize boot h m = s at hi hlive
  obtain ⟨σ, live⟩ := s
  obtain rfl : live = [] := hlive
  exact ⟨initialLevels h, hi⟩

theorem freePages_cons {a : ℕ} (ha : pageSize ∣ a)
    (hin : h.heapStart ≤ a ∧ a < h.heapStart + h.totalPages * 4096)
    (hf : cover (pageBlocks g ++ base) a = 0) :
    freePages h base (a :: g) + 1 = freePages h base g := by
  obtain ⟨i, hlt, hi⟩ := exists_page ha hin
  have herase : (Finset.range h.totalPages).filter
      (fun j => cover (pageBlocks (a :: g) ++ base) (h.heapStart + j * pageSize) = 0) =
      ((Finset.range h.totalPages).filter
        fun j => cover (pageBlocks g ++ base) (h.heapStart + j * pageSize) = 0).erase i := by
    ext j
    have hj : InPage a (h.heapStart + j * pageSize) ↔ j = i := by
      rw [hi]
      simp only [InPage, pageSize]
      omega
    simp only [Finset.mem_filter, Finset.mem_erase, cover_cons_page, hj]
    split
    · next he => simp [he]
    · next he => simp [he]
  rw [freePages, herase]
  apply Finset.card_erase_add_one
  rw [Finset.mem_filter, ← hi]
  exact ⟨Finset.mem_range.mpr hlt, hf⟩

theorem Owned.granted_inside (ho : Owned h base σ) {a : ℕ} (ha : a ∈ σ.granted) :
    pageSize ∣ a ∧ h.heapStart ≤ a ∧ a + pageSize ≤ h.heapStart + h.totalPages * 4096 := by
  obtain ⟨L, hi⟩ := ho
  have hmem : (⟨a, 0⟩ : Block) ∈ (pageBlocks σ.granted ++ base) ++ freeBlocks L :=
    List.mem_append_left _ (List.mem_append_left _ (List.mem_map.mpr ⟨a, ha, rfl⟩))
  exact ⟨hi.unit _ hmem, hi.tiles.inside hmem⟩

/-- Granted pages are counted off the free ones. -/
theorem Owned.freePages_add (ho : Owned h base σ) :
    freePages h base σ.granted + σ.granted.length = freePages h base [] := by
  have hpage : ∀ a ∈ σ.granted, pageSize ∣ a ∧
      h.heapStart ≤ a ∧ a < h.heapStart + h.totalPages * 4096 := by
    intro a ha
    obtain ⟨h1, h2, h3⟩ := ho.granted_inside ha
    exact ⟨h1, h2, lt_of_lt_of_le (Nat.lt_add_of_pos_right (by decide)) h3⟩
  obtain ⟨L, hi⟩ := ho
  have honce := hi.placed.once
  have hcov : ∀ x, cover (pageBlocks σ.granted ++ base) x ≤ 1 := by
    intro x
    have hx := honce x
    simp only [cover, freeBlocks, coverage_append] at hx ⊢
    omega
  generalize σ.granted = g at hpage hcov
  induction g with
  | nil => rfl
  | cons a g ih =>
    have ih' := ih (fun b hb => hpage b (List.mem_cons_of_mem _ hb))
      (fun x => by have := hcov x; rw [cover_cons_page] at this; omega)
    have hself : InPage a a := by simp [InPage, pageSize]
    have hz : cover (pageBlocks g ++ base) a = 0 := by
      have := hcov a
      rw [cover_cons_page, if_pos hself] at this
      omega
    obtain ⟨hal, hin⟩ := hpage a List.mem_cons_self
    have hcons := freePages_cons hal hin hz
    rw [List.length_cons]
    omega

theorem Owned.zero_notMem (ho : Owned h base σ) : 0 ∉ σ.granted := by
  obtain ⟨L, hi⟩ := ho
  intro h0
  refine hi.placed.ne_zero (b := ⟨0, 0⟩) ?_ rfl
  exact List.mem_append_left _ (List.mem_append_left _ (List.mem_map.mpr ⟨0, h0, rfl⟩))

theorem Owned.write (ho : Owned h base σ) {m : Mem}
    (hm : ∀ x, (∀ a ∈ σ.granted, ¬ InPage a x) → m x = σ.mem x) :
    Owned h base { σ with mem := m } := by
  obtain ⟨L, hi⟩ := ho
  refine ⟨L, client_invariant hi fun x hx => hm x fun a ha hp => ?_⟩
  refine coverage_eq_zero.mp hx ⟨a, 0⟩ ?_ (covers_page.mpr hp)
  exact List.mem_append_left _ (List.mem_map.mpr ⟨a, ha, rfl⟩)

theorem Owned.low_write (ho : Owned h base σ) {m : Mem}
    (hm : ∀ x, h.heapStart ≤ x → m x = σ.mem x) : Owned h base { σ with mem := m } := by
  obtain ⟨L, hi⟩ := ho
  exact ⟨L, low_write_invariant hi hm⟩

theorem apart_of_unheld {t a : ℕ} (ht : t ∈ g) (ha : ∀ x, InPage a x → ¬ Held h base g x) :
    t + pageSize ≤ a ∨ a + pageSize ≤ t := by
  by_contra hc
  push Not at hc
  have hpos : 0 < pageSize := by decide
  exact ha (max a t) (by omega) (held_of_granted ht (by omega))

end

end PageGrants
