import OppoOS.BuddyAllocator
import OppoOS.TableTree

/-!
# Sv39 page tables

`arch/paging.c`: `map_page` and `vaddr_to_paddr`. The call `kalloc(1)` is a parameter that
returns the page and the state after the call; `kallocPage` is the kernel's. A panic is
`none`. Entries and addresses are 64-bit; the shift that can lose bits is reduced modulo
2^64.
-/
namespace Paging

open ByteMemory BuddyAllocator TableTree Function

def pageV : ℕ := 1 <<< 0
def pageR : ℕ := 1 <<< 1
def pageW : ℕ := 1 <<< 2
def pageX : ℕ := 1 <<< 3
def pageU : ℕ := 1 <<< 4

def pageShift : ℕ := 12
def vpnMask : ℕ := 0x1ff
def vpn2Shift : ℕ := 30
def vpn1Shift : ℕ := 21
def vpn0Shift : ℕ := 12
def ppnMask : ℕ := 0x00000FFFFFFFFFFF

def isAligned (value align : ℕ) : Bool :=
  let align := if align = 0 then 8 else align
  value % align == 0

def vpn2 (vaddr : ℕ) : ℕ := (vaddr >>> vpn2Shift) &&& vpnMask
def vpn1 (vaddr : ℕ) : ℕ := (vaddr >>> vpn1Shift) &&& vpnMask
def vpn0 (vaddr : ℕ) : ℕ := (vaddr >>> vpn0Shift) &&& vpnMask

/-- `(PPN_MASK & ((paddr / PAGE_SIZE) << 10)) | PAGE_V`. -/
def branchPte (paddr : ℕ) : ℕ := (ppnMask &&& ((paddr / pageSize) <<< 10)) ||| pageV

/-- `(PPN_MASK & ((paddr / PAGE_SIZE) << 10)) | flags | PAGE_V`. -/
def leafPte (paddr flags : ℕ) : ℕ :=
  (ppnMask &&& ((paddr / pageSize) <<< 10)) ||| flags ||| pageV

/-- `(pte >> 10) << PAGE_SHIFT`. -/
def nextTable (pte : ℕ) : ℕ := (pte >>> 10) <<< pageShift % 2 ^ 64

/-- The machine and, as a ghost, what the calls of `kalloc(1)` returned, the latest first. -/
structure Pages extends Machine where
  granted : List ℕ

/-- `kalloc(1)`. -/
def kallocPage (σ : Pages) : ℕ × Pages :=
  let r := kalloc σ.toMachine 1
  (r.1, ⟨r.2, r.1 :: σ.granted⟩)

@[simp] theorem kallocPage_page (σ : Pages) : (kallocPage σ).1 = (kalloc σ.toMachine 1).1 := by
  rw [kallocPage]

@[simp] theorem kallocPage_machine (σ : Pages) :
    (kallocPage σ).2.toMachine = (kalloc σ.toMachine 1).2 := by
  rw [kallocPage]

@[simp] theorem kallocPage_granted (σ : Pages) :
    (kallocPage σ).2.granted = (kallocPage σ).1 :: σ.granted := by
  rw [kallocPage]

section
variable (kalloc : Pages → ℕ × Pages)

/-- The step `map_page` takes twice: allocate the next table when the entry is not valid,
then follow the entry. -/
def tableFor (σ : Pages) (entry : ℕ) : ℕ × Pages :=
  let σ' :=
    if load64 σ.mem entry &&& pageV = 0 then
      let r := kalloc σ
      { r.2 with mem := store64 r.2.mem entry (branchPte r.1) }
    else σ
  (nextTable (load64 σ'.mem entry), σ')

def mapPage (σ : Pages) (rootTable vaddr paddr flags : ℕ) : Option Pages :=
  if ¬ isAligned vaddr pageSize then none
  else if ¬ isAligned paddr pageSize then none
  else if flags &&& 0xe = 0 then none
  else
    let r₁ := tableFor kalloc σ (entryAddr rootTable (vpn2 vaddr))
    let r₀ := tableFor kalloc r₁.2 (entryAddr r₁.1 (vpn1 vaddr))
    let mem := store64 r₀.2.mem (entryAddr r₀.1 (vpn0 vaddr)) (leafPte paddr flags)
    some { r₀.2 with mem := mem }

end

/-- The returned physical address, 0 for NULL. -/
def vaddrToPaddr (m : Mem) (rootTable vaddr : ℕ) : ℕ :=
  let pte2 := load64 m (entryAddr rootTable (vpn2 vaddr))
  if pte2 &&& pageV = 0 then 0
  else
    let pte1 := load64 m (entryAddr (nextTable pte2) (vpn1 vaddr))
    if pte1 &&& pageV = 0 then 0
    else
      let pte0 := load64 m (entryAddr (nextTable pte1) (vpn0 vaddr))
      if pte0 &&& pageV = 0 then 0
      else
        let ppn := (pte0 >>> 10) &&& ppnMask
        let pageOffset := vaddr &&& (pageSize - 1)
        (ppn <<< pageShift) ||| pageOffset

theorem isAligned_iff (v : ℕ) : isAligned v pageSize = true ↔ pageSize ∣ v := by
  simp [isAligned, pageSize, Nat.dvd_iff_mod_eq_zero]

theorem and_vpnMask (x : ℕ) : x &&& vpnMask = x % 512 := Nat.and_two_pow_sub_one_eq_mod x 9

theorem vpn2_eq (v : ℕ) : vpn2 v = v / 2 ^ 30 % 512 := by
  rw [vpn2, and_vpnMask, Nat.shiftRight_eq_div_pow]
  rfl

theorem vpn1_eq (v : ℕ) : vpn1 v = v / 2 ^ 21 % 512 := by
  rw [vpn1, and_vpnMask, Nat.shiftRight_eq_div_pow]
  rfl

theorem vpn0_eq (v : ℕ) : vpn0 v = v / 2 ^ 12 % 512 := by
  rw [vpn0, and_vpnMask, Nat.shiftRight_eq_div_pow]
  rfl

theorem vpn_lt (v : ℕ) : vpn2 v < 512 ∧ vpn1 v < 512 ∧ vpn0 v < 512 := by
  rw [vpn2_eq, vpn1_eq, vpn0_eq]
  omega

theorem page_eq_of_vpn {a b : ℕ} (ha : a < 2 ^ 39) (hb : b < 2 ^ 39) (h2 : vpn2 a = vpn2 b)
    (h1 : vpn1 a = vpn1 b) (h0 : vpn0 a = vpn0 b) : a / pageSize = b / pageSize := by
  rw [vpn2_eq, vpn2_eq] at h2
  rw [vpn1_eq, vpn1_eq] at h1
  rw [vpn0_eq, vpn0_eq] at h0
  simp only [pageSize]
  omega

theorem and_pageV (x : ℕ) : x &&& pageV = x % 2 := Nat.and_one_is_mod x

theorem ppnField (paddr : ℕ) (h : paddr < 2 ^ 46) :
    ppnMask &&& ((paddr / pageSize) <<< 10) = (paddr / pageSize) <<< 10 := by
  rw [Nat.and_comm]
  refine (Nat.and_two_pow_sub_one_eq_mod _ 44).trans (Nat.mod_eq_of_lt ?_)
  rw [Nat.shiftLeft_eq]
  simp only [pageSize]
  omega

theorem flags_lt {flags : ℕ} (h : flags < 2 ^ 10) : flags ||| pageV < 2 ^ 10 :=
  Nat.or_lt_two_pow h (by decide)

theorem leafPte_eq {paddr flags : ℕ} (hp : paddr < 2 ^ 46) (hf : flags < 2 ^ 10) :
    leafPte paddr flags = paddr / pageSize * 1024 + (flags ||| pageV) := by
  rw [leafPte, ppnField paddr hp, Nat.or_assoc,
    ← Nat.shiftLeft_add_eq_or_of_lt (flags_lt hf), Nat.shiftLeft_eq]

theorem branchPte_eq_leafPte (paddr : ℕ) : branchPte paddr = leafPte paddr 0 := by
  rw [branchPte, leafPte, Nat.or_zero]

theorem flags_valid (flags : ℕ) : (flags ||| pageV) % 2 = 1 := by
  simp [pageV, Nat.or_mod_two_eq_one]

theorem leafPte_valid {paddr flags : ℕ} (hp : paddr < 2 ^ 46) (hf : flags < 2 ^ 10) :
    leafPte paddr flags &&& pageV = 1 := by
  have hv := flags_valid flags
  rw [and_pageV, leafPte_eq hp hf]
  omega

theorem leafPte_lt {paddr flags : ℕ} (hp : paddr < 2 ^ 46) (hf : flags < 2 ^ 10) :
    leafPte paddr flags < 2 ^ 64 := by
  have hv := flags_lt hf
  rw [leafPte_eq hp hf]
  simp only [pageSize]
  omega

theorem nextTable_leafPte {paddr flags : ℕ} (ha : pageSize ∣ paddr) (hp : paddr < 2 ^ 46)
    (hf : flags < 2 ^ 10) : nextTable (leafPte paddr flags) = paddr := by
  have hv := flags_lt hf
  rw [nextTable, leafPte_eq hp hf, Nat.shiftRight_eq_div_pow, Nat.shiftLeft_eq]
  simp only [pageSize, pageShift] at ha ⊢
  omega

theorem nextTable_branchPte {paddr : ℕ} (ha : pageSize ∣ paddr) (hp : paddr < 2 ^ 46) :
    nextTable (branchPte paddr) = paddr := by
  rw [branchPte_eq_leafPte, nextTable_leafPte ha hp (by decide)]

theorem paddr_of_leafPte {paddr flags : ℕ} (vaddr : ℕ) (ha : pageSize ∣ paddr)
    (hp : paddr < 2 ^ 46) (hf : flags < 2 ^ 10) :
    (((leafPte paddr flags >>> 10) &&& ppnMask) <<< pageShift) ||| (vaddr &&& (pageSize - 1)) =
      paddr + vaddr % pageSize := by
  have hv := flags_lt hf
  have hshift : leafPte paddr flags >>> 10 = paddr / pageSize := by
    rw [leafPte_eq hp hf, Nat.shiftRight_eq_div_pow]
    omega
  have hmask : paddr / pageSize &&& ppnMask = paddr / pageSize := by
    refine (Nat.and_two_pow_sub_one_eq_mod _ 44).trans (Nat.mod_eq_of_lt ?_)
    simp only [pageSize]
    omega
  have hoff : vaddr &&& (pageSize - 1) = vaddr % pageSize :=
    Nat.and_two_pow_sub_one_eq_mod vaddr 12
  have hlt : vaddr % pageSize < 2 ^ pageShift := Nat.mod_lt _ (by decide)
  rw [hshift, hmask, hoff, ← Nat.shiftLeft_add_eq_or_of_lt hlt, Nat.shiftLeft_eq]
  simp only [pageSize, pageShift] at ha ⊢
  omega

end Paging
