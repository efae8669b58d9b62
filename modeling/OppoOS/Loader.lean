import OppoOS.FailedAllocation
import OppoOS.Mmu
import OppoOS.ProcessSpace

/-!
# What a new process sees

The address space after `create_process`, byte by byte, in any state of the allocator in
which the allocations of the call succeed.
-/
namespace Loader

open ByteMemory BuddyTiling BuddyAllocator AllocatorRuns FailedAllocation TableTree Paging
open PageTables PageGrants AddressSpace Processes ProcessSpace

def loadedSize (n : ℕ) : ℕ := (n + pageSize - 1) / pageSize * pageSize

def KernelOnly (m : Mem) (root a : ℕ) : Prop :=
  vaddrToPaddr m root a = a ∧ ∃ pte, leafEntry m root a = some pte ∧ pte &&& pageU = 0

/-- The image's bytes are those it holds after the call; only an image inside the slot of the
new process is changed by the call. -/
structure Loaded (l : Layout) (t t' : ProcTable) (i : Fin procsMax) (image n : ℕ) : Prop where
  image_bytes : ∀ j, j < n →
    t'.pages.mem (vaddrToPaddr t'.pages.mem (t'.procs i).pageTable (userBase + j)) =
      t'.pages.mem (image + j)
  image_kept : ∀ j, j < n → ¬ InSlot l i (image + j) →
    t'.pages.mem (image + j) = t.pages.mem (image + j)
  padding : ∀ j, n ≤ j → j < loadedSize n →
    t'.pages.mem (vaddrToPaddr t'.pages.mem (t'.procs i).pageTable (userBase + j)) = 0
  image_frames : ∀ j, j < loadedSize n → ∃ f ∈ t'.pages.granted,
    vaddrToPaddr t'.pages.mem (t'.procs i).pageTable (userBase + j) = f + j % pageSize
  image_flags : ∀ j, j < loadedSize n →
    (leafEntry t'.pages.mem (t'.procs i).pageTable (userBase + j)).map (· % 2 ^ 10) =
      some (pageU ||| pageR ||| pageW ||| pageX ||| pageV)
  kernel_pages : ∀ a, kernelBase ≤ a → a < l.freeRamEnd →
    KernelOnly t'.pages.mem (t'.procs i).pageTable a
  device_pages : ∀ a, virtioPaddr ≤ a → a < virtioPaddr + 8 * pageSize →
    KernelOnly t'.pages.mem (t'.procs i).pageTable a
  unmapped : ∀ a, a < 2 ^ 39 → ¬ (userBase ≤ a ∧ a < userBase + loadedSize n) →
    ¬ (kernelBase ≤ a ∧ a < l.freeRamEnd) →
    ¬ (virtioPaddr ≤ a ∧ a < virtioPaddr + 8 * pageSize) →
    leafEntry t'.pages.mem (t'.procs i).pageTable a = none ∧
      vaddrToPaddr t'.pages.mem (t'.procs i).pageTable a = 0

def pageOf (a : ℕ) : ℕ := a / pageSize * pageSize

theorem key_pageOf (a : ℕ) : key (pageOf a) = key a := by
  simp only [key, vpn2_eq, vpn1_eq, vpn0_eq, pageOf, pageSize, List.cons.injEq, and_true]
  omega

theorem inPage_of_key {a b : ℕ} (ha : a < 2 ^ 39) (hb : b < 2 ^ 39) (hd : pageSize ∣ b)
    (h : key a = key b) : InPage b a := by
  have hp := (key_eq_iff ha hb).mp h
  simp only [InPage, pageSize] at hd hp ⊢
  omega

theorem pageOf_mem_kernelPages {l : Layout} {a : ℕ} (hlo : kernelBase ≤ a)
    (hhi : a < l.freeRamEnd) : pageOf a ∈ l.kernelPages := by
  refine mem_pageAddrs.mpr ⟨(a - kernelBase) / pageSize, ?_, ?_⟩
  · simp only [pageSize] at *
    omega
  · simp only [pageOf, kernelBase, pageSize] at *
    omega

theorem pageOf_mem_devicePages {a : ℕ} (hlo : virtioPaddr ≤ a)
    (hhi : a < virtioPaddr + 8 * pageSize) : pageOf a ∈ devicePages := by
  refine List.mem_map.mpr ⟨(a - virtioPaddr) / pageSize, ?_, ?_⟩
  · rw [List.mem_range]
    simp only [pageSize] at *
    omega
  · simp only [pageOf, virtioPaddr, pageSize] at *
    omega

theorem kernelPage_bounds {l : Layout} {a b : ℕ} (hb : b ∈ l.kernelPages) (ha : InPage b a) :
    kernelBase ≤ a ∧ a < l.freeRamEnd := by
  obtain ⟨i, hi, rfl⟩ := mem_pageAddrs.mp hb
  obtain ⟨q, hq⟩ := l.freeRam_aligned
  simp only [InPage, Layout.freeRamEnd, kernelBase, pageSize] at *
  omega

theorem devicePage_bounds {a b : ℕ} (hb : b ∈ devicePages) (ha : InPage b a) :
    virtioPaddr ≤ a ∧ a < virtioPaddr + 8 * pageSize := by
  obtain ⟨i, hi, rfl⟩ := List.mem_map.mp hb
  rw [List.mem_range] at hi
  simp only [InPage, pageSize] at *
  omega

theorem imagePage_bounds {n off a : ℕ} (hoff : off ∈ pageAddrs 0 n)
    (ha : InPage (userBase + off) a) : userBase ≤ a ∧ a < userBase + loadedSize n := by
  obtain ⟨i, hi, rfl⟩ := mem_pageAddrs.mp hoff
  simp only [InPage, loadedSize, pageSize] at *
  omega

theorem exists_frame {n j : ℕ} {frames : List ℕ} (hlen : frames.length = (pageAddrs 0 n).length)
    (hj : j < loadedSize n) :
    ∃ r ∈ (pageAddrs 0 n).zip frames, pageSize ∣ r.1 ∧ r.1 ≤ j ∧ j < r.1 + pageSize := by
  have hoff : j / pageSize * pageSize ∈ pageAddrs 0 n := by
    refine mem_pageAddrs.mpr ⟨j / pageSize, ?_, ?_⟩
    · simp only [loadedSize, pageSize] at hj ⊢
      omega
    · rw [Nat.zero_add, Nat.mul_comm]
  rw [← List.map_fst_zip hlen.ge] at hoff
  obtain ⟨r, hr, he⟩ := List.mem_map.mp hoff
  refine ⟨r, hr, he ▸ Nat.dvd_mul_left _ _, ?_, ?_⟩
  · rw [he]
    exact Nat.div_mul_le_self j pageSize
  · rw [he]
    simp only [pageSize]
    omega

section
variable {l : Layout} {base : List Block} {t t' : ProcTable} {i : Fin procsMax} {image n : ℕ}
  {loc : List ℕ → Option ℕ} {frames : List ℕ}

theorem held_outside (g : List ℕ) {x : ℕ} (hx : x < l.freeRam ∨ l.freeRamEnd ≤ x) :
    Held (heapOf l) base g x := by
  have htotal := heapOf_totalPages l
  refine Or.inl fun hin => ?_
  rw [htotal] at hin
  simp only [heapOf, Layout.freeRamEnd] at hin hx
  omega

theorem kernelOnly_of_leaf (hs : NewSpace l base t t' i image n loc frames) {a flags : ℕ}
    (hM : spaceLeaves l n frames (key a) = some (pageOf a, flags))
    (hf : (flags ||| pageV) &&& pageU = 0) :
    KernelOnly t'.pages.mem (t'.procs i).pageTable a := by
  obtain ⟨henc, hlt⟩ := hs.space.table.frames hM
  constructor
  · rw [hs.space.table.vaddrToPaddr_eq, hM]
    exact Nat.div_add_mod' a pageSize
  · refine ⟨leafPte (pageOf a) flags, ?_, ?_⟩
    · rw [hs.space.table.leafEntry_eq, hM]
      rfl
    · -- bit 4 is a flag bit
      have hbit := Mmu.leafPte_testBit henc.2 hlt (show 4 < 10 by decide)
      have hU : pageU = 2 ^ 4 := rfl
      rw [hU, Nat.and_two_pow] at hf ⊢
      rw [hbit]
      exact hf

theorem image_leaf (hn : userBase + n ≤ virtioPaddr)
    (hs : NewSpace l base t t' i image n loc frames) {r : ℕ × ℕ} {j : ℕ}
    (hr : r ∈ (pageAddrs 0 n).zip frames) (hd : pageSize ∣ r.1)
    (hj : r.1 ≤ j ∧ j < r.1 + pageSize) :
    spaceLeaves l n frames (key (userBase + j)) = some (r.2, userFlags) := by
  have hpage : pageOf (userBase + j) = userBase + r.1 := by
    simp only [pageOf, userBase, pageSize] at hd hj ⊢
    omega
  rw [← key_pageOf, hpage]
  exact spaceLeaves_image hn hs.length hr

theorem image_translation (hn : userBase + n ≤ virtioPaddr)
    (hs : NewSpace l base t t' i image n loc frames) {r : ℕ × ℕ} {j : ℕ}
    (hr : r ∈ (pageAddrs 0 n).zip frames) (hd : pageSize ∣ r.1)
    (hj : r.1 ≤ j ∧ j < r.1 + pageSize) :
    vaddrToPaddr t'.pages.mem (t'.procs i).pageTable (userBase + j) = r.2 + (j - r.1) := by
  have hoff : (userBase + j) % pageSize = j - r.1 := by
    simp only [userBase, pageSize] at hd hj ⊢
    omega
  rw [hs.space.table.vaddrToPaddr_eq, image_leaf hn hs hr hd hj, hoff]
  rfl

theorem image_byte (hn : userBase + n ≤ virtioPaddr)
    (hs : NewSpace l base t t' i image n loc frames)
    (hout : ∀ x, image ≤ x → x < image + n → x < l.freeRam ∨ l.freeRamEnd ≤ x) {j : ℕ}
    (hj : j < loadedSize n) :
    t'.pages.mem (vaddrToPaddr t'.pages.mem (t'.procs i).pageTable (userBase + j)) =
      if j < n then (framed l t i).mem (image + j) else 0 := by
  obtain ⟨r, hr, hd, hlo, hhi⟩ := exists_frame hs.length hj
  have hfill := hs.filled (fun x hl hr => held_outside _ (hout x hl hr)) r hr (j - r.1) (by omega)
  rw [image_translation hn hs hr hd ⟨hlo, hhi⟩, hfill]
  have hsum : r.1 + (j - r.1) = j := by omega
  rw [hsum, Nat.add_assoc, hsum]

theorem unmapped_leaf (hn : userBase + n ≤ virtioPaddr) {a : ℕ} (ha : a < 2 ^ 39)
    (hu : ¬ (userBase ≤ a ∧ a < userBase + loadedSize n))
    (hk : ¬ (kernelBase ≤ a ∧ a < l.freeRamEnd))
    (hv : ¬ (virtioPaddr ≤ a ∧ a < virtioPaddr + 8 * pageSize)) :
    spaceLeaves l n frames (key a) = none := by
  obtain ⟨hkernel, hdevice, himage⟩ := region_bounds l hn
  have hbig : virtioPaddr < 2 ^ 39 := by decide
  by_contra hne
  obtain ⟨e, he⟩ := Option.ne_none_iff_exists'.mp hne
  rcases imageLeaves_cases _ he with ⟨r, hr, hkey, -⟩ | he
  · obtain ⟨hd, hlt⟩ := himage r.1 (List.of_mem_zip hr).1
    exact hu (imagePage_bounds (List.of_mem_zip hr).1 (inPage_of_key ha (by omega) hd hkey))
  · rcases leaves_cases _ he with ⟨b, hb, hkey, -⟩ | he
    · obtain ⟨hd, -, hlt⟩ := hdevice b hb
      have hlow : kernelBase < 2 ^ 39 := by decide
      exact hv (devicePage_bounds hb (inPage_of_key ha (by omega) hd hkey))
    · rcases leaves_cases _ he with ⟨b, hb, hkey, -⟩ | he
      · obtain ⟨hd, -, hlt⟩ := hkernel b hb
        exact hk (kernelPage_bounds hb (inPage_of_key ha (by omega) hd hkey))
      · cases he

theorem loaded_of_newSpace (hn : n ≤ maxImage)
    (hs : NewSpace l base t t' i image n loc frames)
    (hout : ∀ x, image ≤ x → x < image + n → x < l.freeRam ∨ l.freeRamEnd ≤ x) :
    Loaded l t t' i image n := by
  have hroom : userBase + n ≤ virtioPaddr := by
    simp only [maxImage, userBase, virtioPaddr] at hn ⊢
    omega
  have hwhole : n ≤ loadedSize n := by
    simp only [loadedSize, pageSize]
    omega
  have hafter : ∀ j, j < n → t'.pages.mem (image + j) = (framed l t i).mem (image + j) :=
    fun j hj => hs.kept _ (held_outside _ (hout _ (by omega) (by omega)))
  refine ⟨?_, ?_, ?_, ?_, ?_, ?_, ?_, ?_⟩
  · intro j hj
    rw [image_byte hroom hs hout (by omega), if_pos hj, hafter j hj]
  · intro j hj hslot
    rw [hafter j hj, framed_outside l t hslot]
  · intro j hj hlt
    rw [image_byte hroom hs hout hlt, if_neg (by omega)]
  · intro j hj
    obtain ⟨r, hr, hd, hlo, hhi⟩ := exists_frame hs.length hj
    refine ⟨r.2, hs.new_frames.granted _ (List.of_mem_zip hr).2, ?_⟩
    rw [image_translation hroom hs hr hd ⟨hlo, hhi⟩]
    simp only [pageSize] at hd hhi ⊢
    omega
  · intro j hj
    obtain ⟨r, hr, hd, hlo, hhi⟩ := exists_frame hs.length hj
    have hM := image_leaf hroom hs hr hd ⟨hlo, hhi⟩
    obtain ⟨henc, hlt⟩ := hs.space.table.frames hM
    dsimp only at henc hlt
    have hflags := flags_lt hlt
    have hlow : leafPte r.2 userFlags % 2 ^ 10 = userFlags ||| pageV := by
      rw [leafPte_eq henc.2 hlt]
      omega
    rw [hs.space.table.leafEntry_eq, hM, Option.map_some, Option.map_some, hlow]
    rfl
  · intro a hlo hhi
    have hM : spaceLeaves l n frames (key a) = some (pageOf a, kernelFlags) := by
      rw [← key_pageOf, spaceLeaves_kernel hroom (pageOf_mem_kernelPages hlo hhi)]
    exact kernelOnly_of_leaf hs hM (by decide)
  · intro a hlo hhi
    have hM : spaceLeaves l n frames (key a) = some (pageOf a, deviceFlags) := by
      rw [← key_pageOf, spaceLeaves_device hroom (pageOf_mem_devicePages hlo hhi)]
    exact kernelOnly_of_leaf hs hM (by decide)
  · intro a ha hu hk hv
    have hM : spaceLeaves l n frames (key a) = none := unmapped_leaf hroom ha hu hk hv
    constructor
    · rw [hs.space.table.leafEntry_eq, hM]
      rfl
    · rw [hs.space.table.vaddrToPaddr_eq, hM]
      rfl

end

/-- Any image of up to 8 MiB outside the heap, in any state the allocator can reach, failed
calls included: if no allocation of `create_process` fails, the process is loaded. -/
theorem loader_correct (l : Layout) (s : AllocatorRuns.State)
    (hr : Reachable (heapOf l) AnyCall s) (procs : Fin procsMax → Process) (image n : ℕ)
    (hn : n ≤ maxImage)
    (hout : ∀ x, image ≤ x → x < image + n → x < l.freeRam ∨ l.freeRamEnd ≤ x)
    (i : Fin procsMax) (t' : ProcTable)
    (hc : createProcess kallocPage l ⟨⟨s.machine, []⟩, procs⟩ image n = some (i, t'))
    (hok : 0 ∉ t'.pages.granted) : Loaded l ⟨⟨s.machine, []⟩, procs⟩ t' i image n := by
  obtain ⟨lost, L, hi⟩ := reachable_loses hr
  have ho : Owned (heapOf l) (s.live ++ lost) ⟨s.machine, []⟩ := ⟨L, hi⟩
  obtain ⟨loc, frames, hs⟩ := createProcess_space (t := ⟨⟨s.machine, []⟩, procs⟩)
    (kallocPage_allocator (heapOf l) (s.live ++ lost)) ho hc hok
  exact loaded_of_newSpace hn hs hout

/-- An image of three quarters of a page, in memory full of sevens. -/
theorem loader_correct_after_boot : ∃ σ : Machine, ∃ t',
    Loaded sampleLayout ⟨⟨σ, []⟩, noProcs⟩ t' 0 kernelBase 0xC00 ∧
    (∀ j, j < 0xC00 →
      t'.pages.mem (vaddrToPaddr t'.pages.mem (t'.procs 0).pageTable (userBase + j)) = 7) ∧
    ∀ j, 0xC00 ≤ j → j < 0x1000 →
      t'.pages.mem (vaddrToPaddr t'.pages.mem (t'.procs 0).pageTable (userBase + j)) = 0 := by
  obtain ⟨s, hr, hmem, ho⟩ : ∃ s, Reachable (heapOf sampleLayout) AnyCall s ∧
      (∀ x, x < sampleLayout.freeRam → s.machine.mem x = 7) ∧
      Owned (heapOf sampleLayout) [] ⟨s.machine, []⟩ :=
    ⟨_, .boot fun _ => 7, fun x hx => boot_outside (heapOf sampleLayout) _ hx,
      owned_boot (heapOf sampleLayout) fun _ => 7⟩
  have hroom : pagesNeeded sampleLayout 0xC00 ≤ freePages (heapOf sampleLayout) [] [] := by
    rw [freePages_nil, heapOf_totalPages]
    exact (pagesNeeded_le sampleLayout (by decide)).trans (by decide)
  obtain ⟨t', hc, hok⟩ := createProcess_served (t := ⟨⟨s.machine, []⟩, noProcs⟩)
    (kallocPage_allocator (heapOf sampleLayout) []) ho kernelBase
    (findUnused_all noProcs_unused) hroom
  have hlow : ∀ x, x < kernelBase + 0xC00 → x < sampleLayout.freeRam := fun x hx =>
    hx.trans_le (by decide)
  have hloaded := loader_correct sampleLayout s hr noProcs kernelBase 0xC00 (by decide)
    (fun x _ hx => .inl (hlow x hx)) 0 t' hc hok
  refine ⟨s.machine, t', hloaded, fun j hj => ?_, fun j hlo hhi => hloaded.padding j hlo hhi⟩
  have hslot : ¬ InSlot sampleLayout 0 (kernelBase + j) := by
    rintro ⟨hlo, -⟩
    simp only [Layout.proc, sampleLayout, kernelBase] at hlo
    omega
  rw [hloaded.image_bytes j hj, hloaded.image_kept j hj hslot]
  exact hmem _ (hlow _ (by omega))

end Loader
