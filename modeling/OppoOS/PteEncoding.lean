import OppoOS.PageTableMap

/-!
# The range of page numbers the entries can hold

`map_page` masks the page number after shifting it into its field, so that 34 of the 44
bits of an Sv39 page number are left. Calls whose physical addresses agree below 2^46 write
the same entry.
-/
namespace PteEncoding

open ByteMemory BuddyAllocator TableTree Paging PageTables PageGrants AddressSpace
open PageTableMap

theorem ppnField_mod (paddr : ℕ) :
    ppnMask &&& ((paddr / pageSize) <<< 10) = ((paddr % 2 ^ 46) / pageSize) <<< 10 := by
  rw [Nat.and_comm]
  refine (Nat.and_two_pow_sub_one_eq_mod _ 44).trans ?_
  rw [Nat.shiftLeft_eq, Nat.shiftLeft_eq]
  simp only [pageSize]
  omega

theorem leafPte_mod (paddr flags : ℕ) : leafPte paddr flags = leafPte (paddr % 2 ^ 46) flags := by
  rw [leafPte, leafPte, ppnField_mod, ppnField_mod, Nat.mod_mod]

theorem branchPte_mod (paddr : ℕ) : branchPte paddr = branchPte (paddr % 2 ^ 46) := by
  rw [branchPte_eq_leafPte, branchPte_eq_leafPte, leafPte_mod]

theorem dvd_mod_iff (paddr : ℕ) : pageSize ∣ paddr % 2 ^ 46 ↔ pageSize ∣ paddr :=
  Nat.dvd_mod_iff (by decide)

theorem mod_lt (paddr : ℕ) : paddr % 2 ^ 46 < 2 ^ 46 := Nat.mod_lt _ (by decide)

theorem mapPage_mod (kalloc : Pages → ℕ × Pages) (σ : Pages) (root v paddr flags : ℕ) :
    mapPage kalloc σ root v paddr flags =
      mapPage kalloc σ root v (paddr % 2 ^ 46) flags := by
  have haligned : isAligned paddr pageSize = isAligned (paddr % 2 ^ 46) pageSize := by
    apply Bool.eq_iff_iff.mpr
    rw [isAligned_iff, isAligned_iff, dvd_mod_iff]
  unfold mapPage
  rw [haligned, ← leafPte_mod]

theorem nextTable_branchPte_iff {t : ℕ} (ht : pageSize ∣ t) :
    nextTable (branchPte t) = t ↔ t < 2 ^ 46 := by
  rw [branchPte_mod, nextTable_branchPte ((dvd_mod_iff t).mpr ht) (mod_lt t)]
  constructor
  · intro h
    rw [← h]
    exact mod_lt t
  · exact Nat.mod_eq_of_lt

theorem tableFor_found_iff {kalloc : Pages → ℕ × Pages} {σ : Pages} {entry : ℕ}
    (hv : load64 σ.mem entry &&& pageV = 0) (ht : pageSize ∣ (kalloc σ).1) :
    (tableFor kalloc σ entry).1 = (kalloc σ).1 ↔ (kalloc σ).1 < 2 ^ 46 := by
  have hlt : branchPte (kalloc σ).1 < 2 ^ 64 := by
    rw [branchPte_mod, branchPte_eq_leafPte]
    exact leafPte_lt (mod_lt _) (by decide)
  rw [← nextTable_branchPte_iff ht, tableFor, if_pos hv]
  simp only [load64_store64_same, Nat.mod_eq_of_lt hlt]

structure WideCall (c : MapCall) : Prop where
  vaddr_aligned : pageSize ∣ c.vaddr
  vaddr_lt : c.vaddr < 2 ^ 39
  paddr_aligned : pageSize ∣ c.paddr
  paddr_lt : c.paddr < 2 ^ 56
  flags_lt : c.flags < 2 ^ 10
  permission : c.flags &&& 0xe ≠ 0

inductive WideRun (kalloc : Pages → ℕ × Pages) (root : ℕ) (σ₀ : Pages) :
    List MapCall → Pages → Prop where
  | start : WideRun kalloc root σ₀ [] σ₀
  | call {calls σ σ' c} : WideRun kalloc root σ₀ calls σ → WideCall c →
      FreshCalls kalloc root σ c.vaddr →
      mapPage kalloc σ root c.vaddr c.paddr c.flags = some σ' →
      WideRun kalloc root σ₀ (c :: calls) σ'

/-- The call that writes the same entry with an address below 2^46. -/
def folded (c : MapCall) : MapCall := { c with paddr := c.paddr % 2 ^ 46 }

theorem folded_valid {c : MapCall} (hc : WideCall c) : (folded c).Valid where
  args := by
    refine ⟨hc.vaddr_aligned, ⟨?_, mod_lt _⟩, hc.flags_lt, hc.permission⟩
    exact (dvd_mod_iff _).mpr hc.paddr_aligned
  vaddr_lt := hc.vaddr_lt

section
variable {kalloc : Pages → ℕ × Pages} {root : ℕ} {σ₀ σ : Pages} {calls : List MapCall}

theorem wideRun_folded (hr : WideRun kalloc root σ₀ calls σ) :
    MapRun kalloc root σ₀ (calls.map folded) σ := by
  induction hr with
  | start => exact .start
  | call _ hc hf hm ih =>
    refine .call ih (folded_valid hc) hf ?_
    rw [← hm]
    exact (mapPage_mod ..).symm

theorem wideRun_calls (hr : WideRun kalloc root σ₀ calls σ) : ∀ c ∈ calls, WideCall c := by
  induction hr with
  | start =>
    intro c hc
    cases hc
  | call _ hc _ _ ih =>
    intro d hd
    rcases List.mem_cons.mp hd with rfl | hd
    · exact hc
    · exact ih d hd

theorem lastCall_folded (calls : List MapCall) (a : ℕ) :
    lastCall (calls.map folded) a = (lastCall calls a).map folded := by
  induction calls with
  | nil => rfl
  | cons c calls ih =>
    have hv : (folded c).vaddr = c.vaddr := rfl
    rw [List.map_cons, lastCall_cons, lastCall_cons, ih, hv]
    by_cases hc : c.vaddr / pageSize = a / pageSize
    · rw [if_pos hc, if_pos hc]
      rfl
    · rw [if_neg hc, if_neg hc]

/-- The entry of a mapped page holds its page number and its flags, and the translation of
every byte of the page is the byte of the physical page. -/
structure Encodes (m : Mem) (root : ℕ) (c : MapCall) : Prop where
  entry : ∃ pte, leafEntry m root c.vaddr = some pte ∧
    pte / 2 ^ 10 % 2 ^ 44 = c.paddr / pageSize ∧ pte % 2 ^ 10 = c.flags ||| pageV
  translation : ∀ offset, offset < pageSize →
    vaddrToPaddr m root (c.vaddr + offset) = c.paddr + offset

theorem lastCall_same_page {a b : ℕ} (h : a / pageSize = b / pageSize) :
    lastCall calls a = lastCall calls b := by
  unfold lastCall
  rw [h]

/-- What a page last mapped by `c` translates to. -/
theorem translation_folded (hlast : MapsLast σ.mem root (calls.map folded)) {c : MapCall}
    (hw : WideCall c) (hc : lastCall calls c.vaddr = some c) {offset : ℕ}
    (ho : offset < pageSize) :
    vaddrToPaddr σ.mem root (c.vaddr + offset) = c.paddr % 2 ^ 46 + offset := by
  obtain ⟨q, hq⟩ := hw.vaddr_aligned
  have hlt := hw.vaddr_lt
  simp only [pageSize] at hq ho
  have hpage : (c.vaddr + offset) / pageSize = c.vaddr / pageSize := by
    simp only [pageSize]
    omega
  have hoff : (c.vaddr + offset) % pageSize = offset := by
    simp only [pageSize]
    omega
  rw [hlast.translation _ (by omega), lastCall_folded, lastCall_same_page hpage, hc, hoff]
  rfl

theorem encodes_iff (hlast : MapsLast σ.mem root (calls.map folded)) {c : MapCall}
    (hw : WideCall c) (hc : lastCall calls c.vaddr = some c) :
    Encodes σ.mem root c ↔ c.paddr < 2 ^ 46 := by
  constructor
  · intro he
    have ht := he.translation 0 (by decide)
    rw [translation_folded hlast hw hc (by decide)] at ht
    have hm := mod_lt c.paddr
    omega
  · intro hp
    have hmod : c.paddr % 2 ^ 46 = c.paddr := Nat.mod_eq_of_lt hp
    have hfold : lastCall (calls.map folded) c.vaddr = some (folded c) := by
      rw [lastCall_folded, hc]
      rfl
    constructor
    · have hflags := hlast.flags c.vaddr hw.vaddr_lt
      have hpage := hlast.page c.vaddr hw.vaddr_lt
      rw [hfold] at hflags hpage
      obtain ⟨pte, hpte, hpf⟩ := Option.map_eq_some_iff.mp hflags
      rw [hpte, Option.map_some, Option.map_some, Option.some.injEq] at hpage
      refine ⟨pte, hpte, ?_, hpf⟩
      rw [hpage]
      simp only [folded, hmod, pageSize]
      omega
    · intro offset ho
      rw [translation_folded hlast hw hc ho, hmod]

end

/-- After every run of calls, a mapped page's entry and translation are right exactly when
its physical address is below 2^46. A new table is found where it was allocated exactly
when its address is. -/
theorem pte_encoding_iff (kalloc : Pages → ℕ × Pages) (root : ℕ) (σ₀ : Pages)
    (hz : ∀ x, InPage root x → σ₀.mem x = 0) (calls : List MapCall) (σ : Pages)
    (hr : WideRun kalloc root σ₀ calls σ) :
    (∀ c, lastCall calls c.vaddr = some c →
      (Encodes σ.mem root c ↔ c.paddr < 2 ^ 46)) ∧
    ∀ (σ₁ : Pages) (entry : ℕ), load64 σ₁.mem entry &&& pageV = 0 →
      pageSize ∣ (kalloc σ₁).1 →
        ((tableFor kalloc σ₁ entry).1 = (kalloc σ₁).1 ↔ (kalloc σ₁).1 < 2 ^ 46) := by
  obtain ⟨loc, M, ht, hrec⟩ := run_pageTable hz (wideRun_folded hr)
  have hlast := mapsLast_of_pageTable ht hrec
  refine ⟨fun c hc => ?_, fun σ₁ entry hv ha => tableFor_found_iff hv ha⟩
  exact encodes_iff hlast (wideRun_calls hr c (List.mem_of_find?_eq_some hc)) hc

def widePage : MapCall := ⟨0x1000, 2 ^ 46, pageR⟩

theorem widePage_wide : WideCall widePage :=
  ⟨by decide, by decide, by decide, by decide, by decide, by decide⟩

theorem wideRun_widePage :
    (∀ x, InPage (kallocPage bootPages).1 x → (kallocPage bootPages).2.mem x = 0) ∧
    ∃ σ, mapPage kallocPage (kallocPage bootPages).2 (kallocPage bootPages).1 widePage.vaddr
        widePage.paddr widePage.flags = some σ ∧
      WideRun kallocPage (kallocPage bootPages).1 (kallocPage bootPages).2 [widePage] σ := by
  have ho : Owned fourPages [] bootPages :=
    ⟨_, AllocatorRuns.boot_invariant fourPages fun _ => 0⟩
  obtain ⟨hz, hfresh⟩ := rootCall_fresh (kallocPage_allocator fourPages []) ho (by decide)
    (show 0 + 3 ≤ freePages fourPages [] [] by decide) widePage.vaddr
  have hm := (mapPage_mod kallocPage (kallocPage bootPages).2 (kallocPage bootPages).1
    widePage.vaddr widePage.paddr widePage.flags).trans
      (mapPage_eq (folded_valid widePage_wide).args)
  exact ⟨hz, _, hm, .call .start widePage_wide hfresh hm⟩

theorem pte_encoding_one_page :
    ∃ σ, WideRun kallocPage (kallocPage bootPages).1 (kallocPage bootPages).2 [widePage] σ ∧
      (Encodes σ.mem (kallocPage bootPages).1 widePage ↔ widePage.paddr < 2 ^ 46) := by
  obtain ⟨hz, σ, -, hr⟩ := wideRun_widePage
  exact ⟨σ, hr, (pte_encoding_iff kallocPage _ _ hz _ _ hr).1 widePage (by decide)⟩

/-- The page at 2^46, an aligned 56-bit address, is mapped to the page at 0. -/
theorem wide_page_folds :
    ∃ σ, mapPage kallocPage (kallocPage bootPages).2 (kallocPage bootPages).1 0x1000 (2 ^ 46)
        pageR = some σ ∧
      vaddrToPaddr σ.mem (kallocPage bootPages).1 0x1000 = 0 := by
  obtain ⟨hz, σ, hm, hr⟩ := wideRun_widePage
  obtain ⟨loc, M, ht, hrec⟩ := run_pageTable hz (wideRun_folded hr)
  have hlast := mapsLast_of_pageTable ht hrec
  have hpos : 0 < pageSize := by decide
  have h0 := translation_folded hlast widePage_wide (by decide) hpos
  exact ⟨σ, hm, h0⟩

end PteEncoding
