import OppoOS.Isolation
import OppoOS.Loader

/-!
# The layout of an address space

What the hardware finds in the tables of a process, at every address it can be given.
-/
namespace SpaceLayout

open ByteMemory Paging PageTables PageGrants AddressSpace PageTableMap Processes ProcessSpace Mmu
open Loader (loadedSize pageOf)
open BuddyAllocator (pageSize)

def Maps (m : Mem) (root v flags x : ℕ) : Prop :=
  ∃ pte, translate m root v = some (pte, x) ∧ pte % 2 ^ 10 = flags ||| pageV

/-- The kernel and the devices at their own addresses, `n` bytes of image, nothing else. -/
structure LaidOut (l : Layout) (m : Mem) (root n : ℕ) : Prop where
  kernel : ∀ a, kernelBase ≤ a → a < l.freeRamEnd → Maps m root a kernelFlags a
  device : ∀ a, virtioPaddr ≤ a → a < virtioPaddr + 8 * pageSize → Maps m root a deviceFlags a
  image : ∀ j, j < loadedSize n → ∃ x, Maps m root (userBase + j) userFlags x
  unmapped : ∀ v, v < 2 ^ 64 → ¬ (userBase ≤ v ∧ v < userBase + loadedSize n) →
    ¬ (kernelBase ≤ v ∧ v < l.freeRamEnd) →
    ¬ (virtioPaddr ≤ v ∧ v < virtioPaddr + 8 * pageSize) → translate m root v = none

section
variable {l : Layout}

theorem maps_of_leaf {m : Mem} {root v : ℕ} {loc : List ℕ → Option ℕ}
    {M : List ℕ → Option (ℕ × ℕ)} (h : PageTable m root loc M) (hM : Readable M)
    (hv : Canonical v) {a flags : ℕ} (he : M (key v) = some (a, flags)) :
    Maps m root v flags (a + v % pageSize) := by
  obtain ⟨henc, hlt⟩ := h.frames he
  refine ⟨leafPte a flags, ?_, ?_⟩
  · rw [translate_pageTable h hM hv, he]
    rfl
  · dsimp only at henc hlt
    have hflags := flags_lt hlt
    rw [leafPte_eq henc.2 hlt]
    omega

theorem laidOut_of_table {m : Mem} {root n : ℕ} {loc : List ℕ → Option ℕ} {frames : List ℕ}
    (h : PageTable m root loc (spaceLeaves l n frames))
    (hlen : frames.length = (pageAddrs 0 n).length) (hn : n ≤ maxImage) :
    LaidOut l m root n := by
  have hM := Isolation.spaceLeaves_readable l n frames
  have hroom : userBase + n ≤ virtioPaddr := by
    simp only [maxImage, userBase, virtioPaddr] at hn ⊢
    omega
  have hram : l.freeRamEnd ≤ 2 ^ 38 := by
    have hend := l.ram_end
    simp only [Layout.freeRamEnd]
    omega
  have hself : ∀ a, pageOf a + a % pageSize = a := fun a => Nat.div_add_mod' a pageSize
  constructor
  · intro a hlo hhi
    have hleaf : spaceLeaves l n frames (key a) = some (pageOf a, kernelFlags) := by
      rw [← Loader.key_pageOf, spaceLeaves_kernel hroom (Loader.pageOf_mem_kernelPages hlo hhi)]
    have hmaps := maps_of_leaf h hM (.inl (by omega)) hleaf
    rwa [hself] at hmaps
  · intro a hlo hhi
    have hleaf : spaceLeaves l n frames (key a) = some (pageOf a, deviceFlags) := by
      rw [← Loader.key_pageOf, spaceLeaves_device hroom (Loader.pageOf_mem_devicePages hlo hhi)]
    have hcanon : Canonical a := by
      simp only [virtioPaddr, pageSize] at hhi
      exact .inl (by omega)
    have hmaps := maps_of_leaf h hM hcanon hleaf
    rwa [hself] at hmaps
  · intro j hj
    obtain ⟨r, hr, hd, hlo, hhi⟩ := Loader.exists_frame hlen hj
    have hpage : pageOf (userBase + j) = userBase + r.1 := by
      simp only [pageOf, userBase, pageSize] at hd hhi ⊢
      omega
    have hleaf : spaceLeaves l n frames (key (userBase + j)) = some (r.2, userFlags) := by
      rw [← Loader.key_pageOf, hpage]
      exact spaceLeaves_image hroom hlen hr
    have hcanon : Canonical (userBase + j) := by
      simp only [loadedSize, maxImage, userBase, pageSize] at hj hn ⊢
      exact .inl (by omega)
    exact ⟨_, maps_of_leaf h hM hcanon hleaf⟩
  · intro v hv hu hk hd
    by_cases hcanon : Canonical v
    · -- the walk reads 39 bits, and the upper half lies above all regions
      have hkey : key (v % 2 ^ 39) = key v := by
        simp only [key, vpn2_eq, vpn1_eq, vpn0_eq, List.cons.injEq, and_true]
        omega
      have hlow : v < 2 ^ 38 ∨ 2 ^ 38 ≤ v % 2 ^ 39 := by
        rcases hcanon with hlo | hhi
        · exact .inl hlo
        · exact .inr (by omega)
      have hmod : v < 2 ^ 38 → v % 2 ^ 39 = v := fun hlo => Nat.mod_eq_of_lt (by omega)
      have hnone : spaceLeaves l n frames (key (v % 2 ^ 39)) = none := by
        apply Loader.unmapped_leaf hroom (Nat.mod_lt _ (by decide))
        · simp only [loadedSize, maxImage, userBase, pageSize] at hu hn ⊢
          omega
        · omega
        · simp only [virtioPaddr, pageSize] at hd ⊢
          omega
      rw [hkey] at hnone
      rw [translate_pageTable h hM hcanon, hnone]
      rfl
    · exact if_neg hcanon

theorem userBit_of_flags {pte flags : ℕ} (h : pte % 2 ^ 10 = flags ||| pageV) :
    userBit pte = (flags ||| pageV).testBit 4 := by
  rw [← h, userBit, Nat.testBit_mod_two_pow]
  simp

theorem access_of_maps {m : Mem} {root v x : ℕ} (h : Maps m root v userFlags x) : userAccess m root v = some x := by
  obtain ⟨pte, ht, hf⟩ := h
  rw [userAccess, ht, Option.bind_some, userBit_of_flags hf]
  rfl

theorem no_access_of_maps {m : Mem} {root v flags x : ℕ} (h : Maps m root v flags x)
    (hf : (flags ||| pageV).testBit 4 = false) :
    userAccess m root v = none := by
  obtain ⟨pte, ht, hpte⟩ := h
  rw [userAccess, ht, Option.bind_some, userBit_of_flags hpte, hf]
  rfl

theorem image_of_access {m : Mem} {root n v x : ℕ} (h : LaidOut l m root n)
    (hv : v < 2 ^ 64) (hx : userAccess m root v = some x) : userBase ≤ v ∧ v < userBase + loadedSize n := by
  by_contra hu
  by_cases hk : kernelBase ≤ v ∧ v < l.freeRamEnd
  · rw [no_access_of_maps (h.kernel v hk.1 hk.2) (by decide)] at hx
    cases hx
  · by_cases hd : virtioPaddr ≤ v ∧ v < virtioPaddr + 8 * pageSize
    · rw [no_access_of_maps (h.device v hd.1 hd.2) (by decide)] at hx
      cases hx
    · rw [userAccess, h.unmapped v hv hu hk hd] at hx
      cases hx

end

end SpaceLayout
