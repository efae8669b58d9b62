import OppoOS.Isolation

/-!
# User pointers in system calls

`syscall_entry` hands the pointers of `SYS_READ` and `SYS_OPEN` to `vaddr_to_paddr`, which
looks at 39 bits of them and at no permission.
-/
namespace PointerTranslation

open ByteMemory BuddyTiling BuddyAllocator AllocatorRuns TableTree Paging PageTables
open PageGrants Processes ProcessSpace FailedAllocation Mmu Isolation Function

/-- The canonical address with the same low 39 bits. -/
def signExtend (v : ℕ) : ℕ :=
  if v % 2 ^ 39 < 2 ^ 38 then v % 2 ^ 39 else 2 ^ 64 - 2 ^ 39 + v % 2 ^ 39

theorem signExtend_canonical (v : ℕ) : Canonical (signExtend v) := by
  unfold signExtend Canonical
  split <;> omega

theorem signExtend_of_canonical {v : ℕ} (hv : v < 2 ^ 64) (hc : Canonical v) :
    signExtend v = v := by
  unfold signExtend
  unfold Canonical at hc
  split <;> omega

theorem signExtend_mod (v : ℕ) : signExtend v % 2 ^ 39 = v % 2 ^ 39 := by
  unfold signExtend
  split <;> omega

theorem key_mod (v : ℕ) : key (v % 2 ^ 39) = key v := by
  simp only [key, vpn2_eq, vpn1_eq, vpn0_eq, List.cons.injEq, and_true]
  omega

theorem offset_mod (v : ℕ) : v % 2 ^ 39 % pageSize = v % pageSize :=
  Nat.mod_mod_of_dvd v (by decide)

theorem key_signExtend (v : ℕ) : key (signExtend v) = key v := by
  rw [← key_mod, signExtend_mod, key_mod]

theorem offset_signExtend (v : ℕ) : signExtend v % pageSize = v % pageSize := by
  rw [← offset_mod, signExtend_mod, offset_mod]

section
variable {m : Mem} {root : ℕ} {loc : List ℕ → Option ℕ} {M : List ℕ → Option (ℕ × ℕ)}

/-- The two walks end at the same leaf. -/
theorem translate_signExtend (h : PageTable m root loc M) (hM : Readable M) (v : ℕ) :
    translate m root (signExtend v) =
      (M (key v)).map fun e => (leafPte e.1 e.2, e.1 + v % pageSize) := by
  rw [translate_pageTable h hM (signExtend_canonical v), key_signExtend, offset_signExtend]

/-- How `vaddr_to_paddr` compares with the hardware in one address space. -/
structure TranslationFacts (m : Mem) (root : ℕ) : Prop where
  mapped : ∀ v, v < 2 ^ 64 →
    (vaddrToPaddr m root v ≠ 0 ↔ ∃ pte x, translate m root (signExtend v) = some (pte, x))
  same : ∀ v, v < 2 ^ 64 → ∀ pte x, translate m root (signExtend v) = some (pte, x) →
    vaddrToPaddr m root v = x
  user : ∀ v, v < 2 ^ 64 → ∀ x, userAccess m root v = some x → vaddrToPaddr m root v = x

theorem translation_facts (h : PageTable m root loc M) (hM : Readable M)
    (hpos : ∀ p e, M p = some e → 0 < e.1) : TranslationFacts m root := by
  have hsame : ∀ v, ∀ pte x, translate m root (signExtend v) = some (pte, x) →
      vaddrToPaddr m root v = x := by
    intro v pte x ht
    rw [translate_signExtend h hM] at ht
    obtain ⟨e, he, hx⟩ := Option.map_eq_some_iff.mp ht
    rw [h.vaddrToPaddr_eq, he]
    exact (Prod.mk.inj hx).2
  constructor
  · intro v _
    rw [h.vaddrToPaddr_eq, translate_signExtend h hM]
    cases he : M (key v) with
    | none => simp
    | some e =>
      have := hpos _ e he
      simp only [Option.elim_some, Option.map_some, Option.some.injEq, Prod.mk.injEq]
      refine ⟨fun _ => ⟨_, _, rfl, rfl⟩, fun _ => by omega⟩
  · exact fun v _ => hsame v
  · intro v hv x hx
    obtain ⟨⟨pte, y⟩, ht, hy⟩ := Option.bind_eq_some_iff.mp hx
    have hc := userAccess_canonical hx
    split at hy
    · obtain rfl := Option.some.inj hy
      apply hsame v pte
      rwa [signExtend_of_canonical hv hc]
    · cases hy

end

theorem Invariant.leaf_pos {l : Layout} {base : List Block} {t : ProcTable}
    {loc : Fin procsMax → List ℕ → Option ℕ} {frames : Fin procsMax → List ℕ}
    {size : Fin procsMax → ℕ} (h : Isolation.Invariant l base t loc frames size)
    {i : Fin procsMax} (hi : Registered t i) {p : List ℕ} {e : ℕ × ℕ}
    (he : spaceLeaves l (size i) (frames i) p = some e) : 0 < e.1 := by
  rcases spaceLeaves_cases he with ⟨hk, -⟩ | ⟨hd, -⟩ | ⟨hf, -⟩
  · have hlow := (kernelPages_lt l _ hk).1
    simp only [kernelBase] at hlow
    omega
  · have hlow : ∀ a ∈ devicePages, 0 < a := by decide
    exact hlow _ hd
  · have hin := (h.owned.granted_inside (h.frames_granted i hi _ hf)).2.1
    exact (heapOf l).start_pos.trans_le hin

/-- From any state of the allocator reached after `init_memory`, failed calls included, for
every process created with allocations that succeed, whatever the processes have stored
since. -/
theorem pointer_translation (l : Layout) (s : AllocatorRuns.State)
    (hs : AllocatorRuns.Reachable (heapOf l) AnyCall s)
    (procs : Fin procsMax → Process) (hun : ∀ i, (procs i).state = .unused) (t : ProcTable)
    (hr : Execution kallocPage l ⟨⟨s.machine, []⟩, procs⟩ t) (i : Fin procsMax)
    (hi : Registered t i) : TranslationFacts t.pages.mem (t.procs i).pageTable := by
  obtain ⟨lost, L, hL⟩ := reachable_loses hs
  have ho : Owned (heapOf l) (s.live ++ lost) ⟨s.machine, []⟩ := ⟨L, hL⟩
  obtain ⟨loc, frames, size, h⟩ :=
    execution_invariant (kallocPage_allocator (heapOf l) (s.live ++ lost)) ho hun hr
  exact translation_facts (h.table i hi) (spaceLeaves_readable l _ _)
    fun _ _ he => Invariant.leaf_pos h hi he

theorem pointer_translation_after_one_create :
    ∃ t, Registered t 0 ∧ TranslationFacts t.pages.mem (t.procs 0).pageTable := by
  obtain ⟨t, hc, hok⟩ := createProcess_after_boot (n := 0x3000)
    (kallocPage_allocator (heapOf sampleLayout) []) (fun _ => 0) noProcs_unused kernelBase (by decide)
  have hreg : Registered t 0 := by
    obtain ⟨-, -, hp⟩ := createProcess_cases hc
    rw [Registered, hp, update_self]
    exact ProcState.noConfusion
  refine ⟨t, hreg, pointer_translation sampleLayout _ (.boot fun _ => 0) noProcs noProcs_unused t ?_ 0 hreg⟩
  exact .tail (.nil _) (.create (by decide) hc hok)

theorem kernel_page_resolved {l : Layout} {base : List Block} {t t' : ProcTable}
    {i : Fin procsMax} {image n : ℕ} {loc : List ℕ → Option ℕ} {frames : List ℕ}
    (hn : userBase + n ≤ virtioPaddr) (hs : NewSpace l base t t' i image n loc frames) {v : ℕ}
    (hv : v ∈ l.kernelPages) :
    vaddrToPaddr t'.pages.mem (t'.procs i).pageTable v = v ∧
      userAccess t'.pages.mem (t'.procs i).pageTable v = none := by
  obtain ⟨hal, -, hlt⟩ := (region_bounds l hn).1 v hv
  have hM : spaceLeaves l n frames (key v) = some (v, kernelFlags) := spaceLeaves_kernel hn hv
  constructor
  · rw [hs.space.table.vaddrToPaddr_eq, hM, Option.elim_some, Nat.mod_eq_zero_of_dvd hal,
      Nat.add_zero]
  · rw [userAccess_pageTable hs.space.table (spaceLeaves_readable l n frames)
      (Or.inl (by omega)), hM, Option.bind_some]
    have hu : kernelFlags.testBit 4 = false := by decide
    simp only [hu, Bool.false_eq_true, if_false]

/-- With 0x80200000 in `a1` the kernel gets its own first byte. -/
theorem kernel_pointer_accepted : ∃ t,
    createProcess kallocPage sampleLayout
      ⟨⟨(AllocatorRuns.boot (heapOf sampleLayout) fun _ => 0).machine, []⟩,
        noProcs⟩ kernelBase 0x3000 = some (0, t) ∧
    0 ∉ t.pages.granted ∧
    vaddrToPaddr t.pages.mem (t.procs 0).pageTable 0x80200000 = 0x80200000 ∧
    userAccess t.pages.mem (t.procs 0).pageTable 0x80200000 = none := by
  have hk := kallocPage_allocator (heapOf sampleLayout) []
  obtain ⟨t, hc, hok⟩ := createProcess_after_boot (n := 0x3000) hk (fun _ => 0) noProcs_unused
    kernelBase (by decide)
  have hmem : 0x80200000 ∈ sampleLayout.kernelPages := by
    refine mem_pageAddrs.mpr ⟨0, ?_, Nat.add_zero _⟩
    decide
  have ho := owned_boot (heapOf sampleLayout) fun _ => 0
  refine ⟨t, hc, hok, ?_⟩
  generalize (AllocatorRuns.boot (heapOf sampleLayout) fun _ => 0).machine = σ at hc ho
  obtain ⟨loc, frames, hs⟩ := createProcess_space (t := ⟨⟨σ, []⟩, noProcs⟩) hk ho hc hok
  exact kernel_page_resolved (by decide) hs hmem

end PointerTranslation
