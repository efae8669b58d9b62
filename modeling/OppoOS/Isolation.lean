import OppoOS.FailedAllocation
import OppoOS.Mmu
import OppoOS.PageTableMap
import OppoOS.ProcessSpace

/-!
# Address-space isolation

Processes are created, with allocations that succeed, and processes store bytes through
their own user pages, in any order. Wider stores are sequences of byte stores.
-/
namespace Isolation

open ByteMemory BuddyTiling BuddySystem BuddyAllocator AllocatorRefinement AllocatorRuns
open TableTree Paging PageTables PageGrants AddressSpace PageTableMap Processes ProcessSpace
open FailedAllocation Mmu Function

def Registered (t : ProcTable) (i : Fin procsMax) : Prop := (t.procs i).state ≠ .unused

/-- The physical bytes process `i` reaches in user mode. -/
def UserReach (t : ProcTable) (i : Fin procsMax) (x : ℕ) : Prop :=
  ∃ v, v < 2 ^ 64 ∧ userAccess t.pages.mem (t.procs i).pageTable v = some x

def TableByte (t : ProcTable) (i : Fin procsMax) (x : ℕ) : Prop :=
  ∃ k a, InUse t.pages.mem (t.procs i).pageTable k a ∧ InPage a x

def FreeByte (σ : Machine) (x : ℕ) : Prop :=
  ∃ k, k ≤ maxOrder ∧ ∃ l, Chain σ.mem (σ.freeLists k) l ∧
    ∃ a ∈ l, Block.Covers 12 ⟨a, k⟩ x

def storeByte (t : ProcTable) (x : ℕ) (byte : UInt8) : ProcTable :=
  { t with pages := { t.pages with mem := store8 t.pages.mem x byte } }

inductive Event where
  | create (image imageSize : ℕ)
  | store (i : Fin procsMax) (vaddr : ℕ) (byte : UInt8)

inductive Step (kalloc : Pages → ℕ × Pages) (l : Layout) : ProcTable → Event → ProcTable → Prop
    where
  | create {t image imageSize i t'} : imageSize ≤ maxImage →
      createProcess kalloc l t image imageSize = some (i, t') → 0 ∉ t'.pages.granted →
      Step kalloc l t (.create image imageSize) t'
  | store {t i v byte x} : Registered t i → v < 2 ^ 64 →
      userWrite t.pages.mem (t.procs i).pageTable v = some x →
      Step kalloc l t (.store i v byte) (storeByte t x byte)

inductive Execution (kalloc : Pages → ℕ × Pages) (l : Layout) : ProcTable → ProcTable → Prop
    where
  | nil (t) : Execution kalloc l t t
  | tail {t u v e} : Execution kalloc l t u → Step kalloc l u e v → Execution kalloc l t v

/-- Every process has tables and frames of its own, among the granted pages. -/
structure Invariant (l : Layout) (base : List Block) (t : ProcTable)
    (loc : Fin procsMax → List ℕ → Option ℕ) (frames : Fin procsMax → List ℕ)
    (size : Fin procsMax → ℕ) : Prop where
  owned : Owned (heapOf l) base t.pages
  table : ∀ i, Registered t i →
    PageTable t.pages.mem (t.procs i).pageTable (loc i) (spaceLeaves l (size i) (frames i))
  tables_granted : ∀ i, Registered t i → ∀ p a, loc i p = some a → a ∈ t.pages.granted
  frames_granted : ∀ i, Registered t i → ∀ f ∈ frames i, f ∈ t.pages.granted
  frames_tables : ∀ i j, Registered t i → Registered t j → ∀ f ∈ frames i, ∀ x, InPage f x →
    ¬ InTables (loc j) x
  frames_apart : ∀ i j, Registered t i → Registered t j → i ≠ j →
    ∀ f ∈ frames i, ∀ g ∈ frames j, ∀ x, InPage f x → ¬ InPage g x

theorem spaceLeaves_readable (l : Layout) (n : ℕ) (frames : List ℕ) :
    Readable (spaceLeaves l n frames) := by
  intro p e he
  rcases spaceLeaves_cases he with ⟨-, -, hf⟩ | ⟨-, -, hf⟩ | ⟨-, hf⟩
  all_goals
    rw [hf]
    decide

theorem spaceLeaves_user {l : Layout} {n : ℕ} {frames : List ℕ} {p : List ℕ} {e : ℕ × ℕ}
    (he : spaceLeaves l n frames p = some e) (hu : e.2.testBit 4 = true) : e.1 ∈ frames := by
  rcases spaceLeaves_cases he with ⟨-, -, hf⟩ | ⟨-, -, hf⟩ | ⟨hm, -⟩
  · rw [hf] at hu
    exact absurd hu (by decide)
  · rw [hf] at hu
    exact absurd hu (by decide)
  · exact hm

section
variable {l : Layout} {base : List Block} {t t' : ProcTable}
  {loc : Fin procsMax → List ℕ → Option ℕ} {frames : Fin procsMax → List ℕ}
  {size : Fin procsMax → ℕ} {kalloc : Pages → ℕ × Pages}

theorem Invariant.reach_frame (h : Invariant l base t loc frames size) {i : Fin procsMax}
    (hi : Registered t i) {x : ℕ} (hx : UserReach t i x) : ∃ f ∈ frames i, InPage f x := by
  obtain ⟨v, -, hv⟩ := hx
  have hcanon := userAccess_canonical hv
  rw [userAccess_pageTable (h.table i hi) (spaceLeaves_readable l _ _) hcanon] at hv
  obtain ⟨e, he, hv⟩ := Option.bind_eq_some_iff.mp hv
  split at hv
  · next hu =>
    refine ⟨e.1, spaceLeaves_user he hu, ?_⟩
    obtain rfl := Option.some.inj hv
    exact ⟨Nat.le_add_right _ _, Nat.add_lt_add_left (Nat.mod_lt _ (by decide)) _⟩
  · cases hv

theorem Invariant.tableByte (h : Invariant l base t loc frames size) {i : Fin procsMax}
    (hi : Registered t i) {x : ℕ} (hx : TableByte t i x) : InTables (loc i) x := by
  obtain ⟨k, a, hu, hp⟩ := hx
  obtain ⟨p, hl, -⟩ := loc_of_inUse (h.table i hi) hu
  exact ⟨p, a, hl, hp⟩

theorem Invariant.frame_held (h : Invariant l base t loc frames size) {i : Fin procsMax}
    (hi : Registered t i) {f x : ℕ} (hf : f ∈ frames i) (hx : InPage f x) :
    Held (heapOf l) base t.pages.granted x :=
  held_of_granted (h.frames_granted i hi f hf) hx

theorem Invariant.table_held (h : Invariant l base t loc frames size) {i : Fin procsMax}
    (hi : Registered t i) {x : ℕ} (hx : InTables (loc i) x) :
    Held (heapOf l) base t.pages.granted x ∧ l.freeRam ≤ x := by
  obtain ⟨p, a, hl, hx⟩ := hx
  have hg := h.tables_granted i hi p a hl
  exact ⟨held_of_granted hg hx, (h.owned.granted_inside hg).2.1.trans hx.1⟩

theorem held_not_free {σ : Pages} (ho : Owned (heapOf l) base σ) {x : ℕ}
    (hx : Held (heapOf l) base σ.granted x) : ¬ FreeByte σ.toMachine x := by
  rintro ⟨k, hk, c, hc, a, ha, hcov⟩
  obtain ⟨L, hi⟩ := ho
  have hz := hx.not_free hi
  obtain rfl := Chain.unique hc (hi.represents k hk)
  exact coverage_eq_zero.mp hz _ (mem_freeBlocks hk ha) hcov

theorem store_invariant (h : Invariant l base t loc frames size) {i : Fin procsMax} {x : ℕ}
    (hi : Registered t i) (hx : UserReach t i x) (byte : UInt8) :
    Invariant l base (storeByte t x byte) loc frames size := by
  obtain ⟨f, hf, hp⟩ := h.reach_frame hi hx
  have hsame : ∀ y, y ≠ x → (storeByte t x byte).pages.mem y = t.pages.mem y := by
    intro y hy
    simp [storeByte, store8, hy]
  constructor
  · apply h.owned.write
    intro y hy
    apply hsame
    rintro rfl
    exact hy f (h.frames_granted i hi f hf) hp
  · intro j hj
    apply (h.table j hj).frame
    intro p a hl y h1 h2
    apply hsame
    rintro rfl
    exact h.frames_tables i j hi hj f hf y hp ⟨p, a, hl, h1, h2⟩
  · exact h.tables_granted
  · exact h.frames_granted
  · exact h.frames_tables
  · exact h.frames_apart

/-- A new process takes pages nobody held, so the old ones keep theirs. -/
theorem create_invariant (h : Invariant l base t loc frames size) {i : Fin procsMax}
    {image imageSize : ℕ} {newLoc : List ℕ → Option ℕ} {newFrames : List ℕ}
    (hi : ¬ Registered t i) (hother : ∀ j, j ≠ i → t'.procs j = t.procs j)
    (hn : NewSpace l base t t' i image imageSize newLoc newFrames) :
    Invariant l base t' (update loc i newLoc) (update frames i newFrames)
      (update size i imageSize) := by
  have hold : ∀ j, Registered t' j → j ≠ i → Registered t j := by
    intro j hj hne
    rwa [Registered, hother j hne] at hj
  have hkept : ∀ x, Held (heapOf l) base t.pages.granted x → l.freeRam ≤ x →
      t'.pages.mem x = t.pages.mem x := by
    intro x hx hheap
    rw [hn.kept x hx]
    apply framed_outside
    intro hs
    exact absurd (hs.2.trans_le (stackTop_le l i)) (not_lt.mpr hheap)
  constructor
  · exact hn.space.owned
  · intro j hj
    by_cases hne : j = i
    · subst hne
      simp only [update_self]
      exact hn.space.table
    · simp only [update_of_ne hne, hother j hne]
      apply (h.table j (hold j hj hne)).frame
      intro p a hl x h1 h2
      obtain ⟨hheld, hheap⟩ := h.table_held (hold j hj hne) ⟨p, a, hl, h1, h2⟩
      exact hkept x hheld hheap
  · intro j hj p a hl
    by_cases hne : j = i
    · subst hne
      rw [update_self] at hl
      exact hn.space.tables_granted hl
    · rw [update_of_ne hne] at hl
      exact hn.grown.subset (h.tables_granted j (hold j hj hne) p a hl)
  · intro j hj f hf
    by_cases hne : j = i
    · subst hne
      rw [update_self] at hf
      exact hn.new_frames.granted f hf
    · rw [update_of_ne hne] at hf
      exact hn.grown.subset (h.frames_granted j (hold j hj hne) f hf)
  · intro j k hj hk f hf x hx
    by_cases hjn : j = i
    · subst hjn
      rw [update_self] at hf
      by_cases hkn : k = j
      · subst hkn
        rw [update_self]
        exact hn.new_frames.apart f hf x hx
      · rw [update_of_ne hkn]
        intro hc
        exact hn.new_frames.unheld f hf x hx (h.table_held (hold k hk hkn) hc).1
    · rw [update_of_ne hjn] at hf
      have hheld := h.frame_held (hold j hj hjn) hf hx
      by_cases hkn : k = i
      · subst hkn
        rw [update_self]
        exact fun hc => hn.new_tables x hc hheld
      · rw [update_of_ne hkn]
        exact h.frames_tables j k (hold j hj hjn) (hold k hk hkn) f hf x hx
  · intro j k hj hk hjk f hf g hg x hx hc
    by_cases hjn : j = i
    · subst hjn
      rw [update_self] at hf
      rw [update_of_ne (Ne.symm hjk)] at hg
      exact hn.new_frames.unheld f hf x hx (h.frame_held (hold k hk (Ne.symm hjk)) hg hc)
    · rw [update_of_ne hjn] at hf
      by_cases hkn : k = i
      · subst hkn
        rw [update_self] at hg
        exact hn.new_frames.unheld g hg x hc (h.frame_held (hold j hj hjn) hf hx)
      · rw [update_of_ne hkn] at hg
        exact h.frames_apart j k (hold j hj hjn) (hold k hk hkn) hjk f hf g hg x hx hc

theorem step_preserves_invariant (hk : PageAllocator (heapOf l) base kalloc) {e : Event}
    (h : Invariant l base t loc frames size) (hs : Step kalloc l t e t') :
    ∃ loc' frames' size', Invariant l base t' loc' frames' size' := by
  cases hs with
  | @create image imageSize i t' _ hc hok =>
    obtain ⟨newLoc, newFrames, hn⟩ := createProcess_space hk h.owned hc hok
    obtain ⟨hi, -, hp⟩ := createProcess_cases hc
    refine ⟨_, _, _, create_invariant h (fun hr => hr (findUnused_spec hi).1) ?_ hn⟩
    intro j hj
    rw [hp, update_of_ne hj]
  | store hi hv hw =>
    exact ⟨loc, frames, size, store_invariant h hi ⟨_, hv, userAccess_of_userWrite hw⟩ _⟩

theorem execution_invariant (hk : PageAllocator (heapOf l) base kalloc)
    (ho : Owned (heapOf l) base t.pages) (hun : ∀ i, (t.procs i).state = .unused)
    (hr : Execution kalloc l t t') :
    ∃ loc frames size, Invariant l base t' loc frames size := by
  induction hr with
  | nil =>
    have hno : ∀ i, ¬ Registered t i := fun i hc => hc (hun i)
    refine ⟨fun _ _ => none, fun _ => [], fun _ => 0, ho, ?_, ?_, ?_, ?_, ?_⟩
    all_goals exact fun i => by simp [hno]
  | tail _ hs ih =>
    obtain ⟨loc, frames, size, h⟩ := ih
    exact step_preserves_invariant hk h hs

end

structure IsolationFacts (kalloc : Pages → ℕ × Pages) (l : Layout) (t : ProcTable) : Prop where
  disjoint : ∀ i j, Registered t i → Registered t j → i ≠ j →
    ∀ x, UserReach t i x → ¬ UserReach t j x
  not_kernel : ∀ i, Registered t i → ∀ x, UserReach t i x → ¬ (kernelBase ≤ x ∧ x < l.freeRam)
  not_device : ∀ i, Registered t i → ∀ x, UserReach t i x →
    ¬ (virtioPaddr ≤ x ∧ x < virtioPaddr + 8 * 0x1000)
  not_table : ∀ i j, Registered t i → Registered t j →
    ∀ x, UserReach t i x → ¬ TableByte t j x
  not_free : ∀ i, Registered t i → ∀ x, UserReach t i x → ¬ FreeByte t.pages.toMachine x
  store_tables : ∀ i v byte t', Step kalloc l t (.store i v byte) t' →
    ∀ j, Registered t j → ∀ x, TableByte t j x → t'.pages.mem x = t.pages.mem x
  store_others : ∀ i v byte t', Step kalloc l t (.store i v byte) t' →
    ∀ j, Registered t j → j ≠ i → ∀ x, UserReach t j x → t'.pages.mem x = t.pages.mem x

theorem facts_of_invariant {kalloc : Pages → ℕ × Pages} {l : Layout} {base : List Block}
    {t : ProcTable} {loc : Fin procsMax → List ℕ → Option ℕ} {frames : Fin procsMax → List ℕ}
    {size : Fin procsMax → ℕ} (h : Invariant l base t loc frames size) :
    IsolationFacts kalloc l t := by
  have hdisj : ∀ i j, Registered t i → Registered t j → i ≠ j →
      ∀ x, UserReach t i x → ¬ UserReach t j x := by
    intro i j hi hj hne x hx hc
    obtain ⟨f, hf, hp⟩ := h.reach_frame hi hx
    obtain ⟨g, hg, hq⟩ := h.reach_frame hj hc
    exact h.frames_apart i j hi hj hne f hf g hg x hp hq
  have htable : ∀ i j, Registered t i → Registered t j →
      ∀ x, UserReach t i x → ¬ TableByte t j x := by
    intro i j hi hj x hx hc
    obtain ⟨f, hf, hp⟩ := h.reach_frame hi hx
    exact h.frames_tables i j hi hj f hf x hp (h.tableByte hj hc)
  have hheap : ∀ i, Registered t i → ∀ x, UserReach t i x → l.freeRam ≤ x := by
    intro i hi x hx
    obtain ⟨f, hf, hp⟩ := h.reach_frame hi hx
    exact (h.owned.granted_inside (h.frames_granted i hi f hf)).2.1.trans hp.1
  constructor
  · exact hdisj
  · intro i hi x hx hc
    exact absurd hc.2 (not_lt.mpr (hheap i hi x hx))
  · intro i hi x hx hc
    have hlow := hheap i hi x hx
    have hin := l.procs_inside
    simp only [virtioPaddr, kernelBase] at hc hin
    omega
  · exact htable
  · intro i hi x hx
    obtain ⟨f, hf, hp⟩ := h.reach_frame hi hx
    exact held_not_free h.owned (h.frame_held hi hf hp)
  · intro i v byte t' hs j hj x hx
    cases hs with
    | store hi hv hw =>
      have hne : x ≠ _ := fun he =>
        htable i j hi hj x (he ▸ ⟨v, hv, userAccess_of_userWrite hw⟩) hx
      simp [storeByte, store8, hne]
  · intro i v byte t' hs j hj hji x hx
    cases hs with
    | store hi hv hw =>
      have hne : x ≠ _ := fun he =>
        hdisj j i hj hi hji x hx (he ▸ ⟨v, hv, userAccess_of_userWrite hw⟩)
      simp [storeByte, store8, hne]

/-- From any state of the allocator reached after `init_memory`, failed calls included,
whatever processes are created and whatever they store. -/
theorem address_spaces_isolated (l : Layout) (s : AllocatorRuns.State)
    (hs : AllocatorRuns.Reachable (heapOf l) AnyCall s)
    (procs : Fin procsMax → Process) (hun : ∀ i, (procs i).state = .unused) (t : ProcTable)
    (hr : Execution kallocPage l ⟨⟨s.machine, []⟩, procs⟩ t) : IsolationFacts kallocPage l t := by
  obtain ⟨lost, L, hi⟩ := reachable_loses hs
  have ho : Owned (heapOf l) (s.live ++ lost) ⟨s.machine, []⟩ := ⟨L, hi⟩
  obtain ⟨loc, frames, size, h⟩ :=
    execution_invariant (kallocPage_allocator (heapOf l) (s.live ++ lost)) ho hun hr
  exact facts_of_invariant h

theorem image_writable {l : Layout} {m : Mem} {root n : ℕ} {loc : List ℕ → Option ℕ}
    {frames : List ℕ} (h : PageTable m root loc (spaceLeaves l n frames))
    (hlen : frames.length = (pageAddrs 0 n).length) (hn : n ≤ maxImage) (hpos : 0 < n) :
    ∃ x, userWrite m root userBase = some x := by
  have hroom : userBase + n ≤ virtioPaddr := by
    simp only [maxImage, userBase, virtioPaddr] at hn ⊢
    omega
  have hfirst : 0 ∈ ((pageAddrs 0 n).zip frames).map Prod.fst := by
    rw [List.map_fst_zip hlen.ge, mem_pageAddrs]
    exact ⟨0, by simp only [pageSize]; omega, rfl⟩
  obtain ⟨r, hr, h0⟩ := List.mem_map.mp hfirst
  have hleaf := spaceLeaves_image (l := l) hroom hlen hr
  rw [h0, Nat.add_zero] at hleaf
  have hbits : (userFlags.testBit 4 && userFlags.testBit 2) = true := by decide
  refine ⟨r.2 + userBase % pageSize, ?_⟩
  rw [userWrite_pageTable h (spaceLeaves_readable l n frames) (.inl (by decide)), hleaf,
    Option.bind_some, if_pos hbits]

/-- Two processes, and a store of the second into its image. -/
theorem isolated_after_store : ∃ t u, Registered t 0 ∧ Registered t 1 ∧
    Step kallocPage sampleLayout t (.store 1 userBase 7) u ∧
    IsolationFacts kallocPage sampleLayout u := by
  obtain ⟨s, hs, ho⟩ : ∃ s, AllocatorRuns.Reachable (heapOf sampleLayout) AnyCall s ∧
      Owned (heapOf sampleLayout) [] ⟨s.machine, []⟩ := ⟨_, .boot fun _ => 0, owned_boot (heapOf sampleLayout) fun _ => 0⟩
  have hk := kallocPage_allocator (heapOf sampleLayout) []
  have hn : 0x3000 ≤ maxImage := by decide
  have hneed := pagesNeeded_le sampleLayout hn
  have htotal : freePages (heapOf sampleLayout) [] [] = 32768 := by
    rw [freePages_nil, heapOf_totalPages]
  obtain ⟨t, hc, hok⟩ := createProcess_served (t := ⟨⟨s.machine, []⟩, noProcs⟩) hk ho kernelBase
    (findUnused_all noProcs_unused) (by dsimp only; omega : pagesNeeded sampleLayout 0x3000 ≤ _)
  obtain ⟨loc, frames, hnew⟩ := createProcess_space (t := ⟨⟨s.machine, []⟩, noProcs⟩) hk ho hc hok
  obtain ⟨-, -, hp⟩ := createProcess_cases hc
  have hfree : findUnused t.procs = some 1 := by
    rw [hp]
    simp [findUnused, List.finRange_succ, noProcs]
  have hadd := hnew.space.owned.freePages_add
  have hcount : t.pages.granted.length = pagesNeeded sampleLayout 0x3000 := by
    rw [hnew.space.count, pagesNeeded, List.length_nil, Nat.zero_add]
  have hroom : pagesNeeded sampleLayout 0x3000 ≤ freePages (heapOf sampleLayout) [] t.pages.granted := by
    omega
  obtain ⟨u, hc', hok'⟩ := createProcess_served hk hnew.space.owned kernelBase hfree hroom
  obtain ⟨loc', frames', hnew'⟩ := createProcess_space hk hnew.space.owned hc' hok'
  obtain ⟨-, -, hp'⟩ := createProcess_cases hc'
  have h0 : Registered u 0 := by
    rw [Registered, hp', update_of_ne (by decide), hp, update_self]
    exact ProcState.noConfusion
  have h1 : Registered u 1 := by
    rw [Registered, hp', update_self]
    exact ProcState.noConfusion
  obtain ⟨x, hw⟩ := image_writable hnew'.space.table hnew'.length hn (by decide)
  have hstore : Step kallocPage sampleLayout u (.store 1 userBase 7) _ := .store h1 (by decide) hw
  have hcreates := ((Execution.nil _).tail (.create hn hc hok)).tail (.create hn hc' hok')
  exact ⟨u, _, h0, h1, hstore, address_spaces_isolated sampleLayout s hs noProcs noProcs_unused _
    (hcreates.tail hstore)⟩

end Isolation
