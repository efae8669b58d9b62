import OppoOS.PageTables

/-!
# The Sv39 address translation of the hardware

The page walk of the RISC-V privileged architecture for a 64-bit address, as a function that
only reads memory: the accessed and dirty bits that hardware may record are left out.
-/
namespace Mmu

open ByteMemory BuddyAllocator TableTree Paging PageTables

/-- Bits 63 to 39 equal bit 38. -/
def Canonical (v : ℕ) : Prop := v < 2 ^ 38 ∨ 2 ^ 64 - 2 ^ 38 ≤ v

instance (v : ℕ) : Decidable (Canonical v) := inferInstanceAs (Decidable (_ ∨ _))

def vpnAt (v level : ℕ) : ℕ := v / 2 ^ (12 + 9 * level) % 512

def readable (pte : ℕ) : Bool := pte.testBit 1
def writable (pte : ℕ) : Bool := pte.testBit 2
def executable (pte : ℕ) : Bool := pte.testBit 3
def userBit (pte : ℕ) : Bool := pte.testBit 4

/-- Invalid, write without read, or a reserved bit. -/
def Faults (pte : ℕ) : Prop :=
  pte.testBit 0 = false ∨ (readable pte = false ∧ writable pte = true) ∨ 2 ^ 54 ≤ pte

instance (pte : ℕ) : Decidable (Faults pte) := inferInstanceAs (Decidable (_ ∨ _ ∨ _))

def isLeaf (pte : ℕ) : Bool := readable pte || executable pte

def ppnOf (pte : ℕ) : ℕ := pte / 2 ^ 10 % 2 ^ 44

/-- The leaf entry and its level, from the table of a level downwards. -/
def walk (m : Mem) (v : ℕ) : ℕ → ℕ → Option (ℕ × ℕ)
  | 0, table =>
    let pte := load64 m (entryAddr table (vpnAt v 0))
    if Faults pte then none
    else if isLeaf pte then some (pte, 0)
    else none
  | level + 1, table =>
    let pte := load64 m (entryAddr table (vpnAt v (level + 1)))
    if Faults pte then none
    else if isLeaf pte then some (pte, level + 1)
    else walk m v level (ppnOf pte * 2 ^ 12)

/-- The leaf entry and the physical address; a leaf above level 0 must be aligned. -/
def translate (m : Mem) (root v : ℕ) : Option (ℕ × ℕ) :=
  if Canonical v then
    (walk m v 2 root).bind fun r =>
      if ppnOf r.1 % 2 ^ (9 * r.2) = 0 then
        some (r.1, ppnOf r.1 * 2 ^ 12 + v % 2 ^ (12 + 9 * r.2))
      else none
  else none

/-- Where a user-mode access to `v` lands, when it is allowed. -/
def userAccess (m : Mem) (root v : ℕ) : Option ℕ :=
  (translate m root v).bind fun r => if userBit r.1 then some r.2 else none

def userWrite (m : Mem) (root v : ℕ) : Option ℕ :=
  (translate m root v).bind fun r => if userBit r.1 && writable r.1 then some r.2 else none

theorem userAccess_of_userWrite {m : Mem} {root v a : ℕ} (h : userWrite m root v = some a) :
    userAccess m root v = some a := by
  unfold userWrite at h
  unfold userAccess
  cases ht : translate m root v with
  | none =>
    rw [ht] at h
    cases h
  | some r =>
    rw [ht, Option.bind_some] at h
    rw [Option.bind_some]
    split at h
    · next hu =>
      rw [Bool.and_eq_true] at hu
      rw [if_pos hu.1]
      exact h
    · cases h

theorem vpnAt_two (v : ℕ) : vpnAt v 2 = vpn2 v := (vpn2_eq v).symm
theorem vpnAt_one (v : ℕ) : vpnAt v 1 = vpn1 v := (vpn1_eq v).symm
theorem vpnAt_zero (v : ℕ) : vpnAt v 0 = vpn0 v := (vpn0_eq v).symm

theorem leafPte_testBit {paddr flags i : ℕ} (hp : paddr < 2 ^ 46) (hf : flags < 2 ^ 10)
    (hi : i < 10) : (leafPte paddr flags).testBit i = (flags ||| pageV).testBit i := by
  rw [leafPte_eq hp hf, Nat.mul_comm, show (1024 : ℕ) = 2 ^ 10 from rfl,
    Nat.testBit_two_pow_mul_add _ (flags_lt hf), if_pos hi]

theorem leafPte_bits {paddr flags : ℕ} (hp : paddr < 2 ^ 46) (hf : flags < 2 ^ 10) :
    (leafPte paddr flags).testBit 0 = true ∧
      readable (leafPte paddr flags) = flags.testBit 1 ∧
      writable (leafPte paddr flags) = flags.testBit 2 ∧
      executable (leafPte paddr flags) = flags.testBit 3 ∧
      userBit (leafPte paddr flags) = flags.testBit 4 := by
  have hbit : ∀ i, i < 10 → 0 < i → (leafPte paddr flags).testBit i = flags.testBit i := by
    intro i hi hpos
    rw [leafPte_testBit hp hf hi, Nat.testBit_or, pageV, Nat.shiftLeft_zero,
      Nat.testBit_one_eq_true_iff_self_eq_zero.not.mpr (by omega) |> Bool.eq_false_iff.mpr,
      Bool.or_false]
  refine ⟨?_, hbit 1 (by decide) (by decide), hbit 2 (by decide) (by decide),
    hbit 3 (by decide) (by decide), hbit 4 (by decide) (by decide)⟩
  rw [leafPte_testBit hp hf (by decide), Nat.testBit_or]
  simp [pageV]

theorem leafPte_lt_reserved {paddr flags : ℕ} (hp : paddr < 2 ^ 46) (hf : flags < 2 ^ 10) :
    leafPte paddr flags < 2 ^ 54 := by
  have hv := flags_lt hf
  rw [leafPte_eq hp hf]
  simp only [pageSize]
  omega

theorem ppnOf_leafPte {paddr flags : ℕ} (ha : pageSize ∣ paddr) (hp : paddr < 2 ^ 46)
    (hf : flags < 2 ^ 10) : ppnOf (leafPte paddr flags) * 2 ^ 12 = paddr := by
  have hv := flags_lt hf
  rw [ppnOf, leafPte_eq hp hf]
  simp only [pageSize] at ha ⊢
  omega

def Readable (M : List ℕ → Option (ℕ × ℕ)) : Prop :=
  ∀ p e, M p = some e → e.2.testBit 1 = true

section
variable {m : Mem} {root : ℕ} {loc : List ℕ → Option ℕ} {M : List ℕ → Option (ℕ × ℕ)}

theorem walk_branch (h : PageTable m root loc M) {p : List ℕ} {t u v level : ℕ}
    (hp : loc p = some t) (hlen : p.length < 2) (hu : loc (vpnAt v (level + 1) :: p) = some u) :
    walk m v (level + 1) t = walk m v level u := by
  have hi : vpnAt v (level + 1) < 512 := Nat.mod_lt _ (by decide)
  obtain ⟨ha, hlt⟩ := h.tables hu
  have hz : 0 < 2 ^ 10 := by decide
  obtain ⟨h0, h1, h2, h3, -⟩ := leafPte_bits hlt hz
  have hres := leafPte_lt_reserved hlt hz
  have hentry : load64 m (entryAddr t (vpnAt v (level + 1))) = leafPte u 0 := by
    rw [h.branch_entry hp hi hlen, hu, Option.elim_some, branchPte_eq_leafPte]
  have hf : ¬ Faults (leafPte u 0) := by
    simp only [Faults, h0, h1, h2]
    simp
    omega
  have hl : isLeaf (leafPte u 0) = false := by
    rw [isLeaf, h1, h3]
    rfl
  have hppn := ppnOf_leafPte ha hlt hz
  simp only [walk, hentry, if_neg hf, hl, hppn, Bool.false_eq_true, if_false]

theorem walk_none (h : PageTable m root loc M) {p : List ℕ} {t v level : ℕ}
    (hp : loc p = some t) (hlen : p.length < 2) (hu : loc (vpnAt v (level + 1) :: p) = none) :
    walk m v (level + 1) t = none := by
  have hi : vpnAt v (level + 1) < 512 := Nat.mod_lt _ (by decide)
  have hentry : load64 m (entryAddr t (vpnAt v (level + 1))) = 0 := by
    rw [h.branch_entry hp hi hlen, hu, Option.elim_none]
  have hf : Faults 0 := Or.inl (Nat.zero_testBit 0)
  simp only [walk, hentry, if_pos hf]

theorem walk_leaf (h : PageTable m root loc M) (hM : Readable M) {p : List ℕ} {t v : ℕ}
    (hp : loc p = some t) (hlen : p.length = 2) :
    walk m v 0 t = (M (vpnAt v 0 :: p)).map fun e => (leafPte e.1 e.2, 0) := by
  have hi : vpnAt v 0 < 512 := Nat.mod_lt _ (by decide)
  have hentry := h.leaf_entry hp hi hlen
  simp only [walk]
  cases hm : M (vpnAt v 0 :: p) with
  | none =>
    rw [hm, Option.elim_none] at hentry
    have hf : Faults 0 := Or.inl (Nat.zero_testBit 0)
    rw [hentry, if_pos hf]
    rfl
  | some e =>
    rw [hm, Option.elim_some] at hentry
    obtain ⟨he, hlt⟩ := h.frames hm
    obtain ⟨h0, h1, h2, -⟩ := leafPte_bits he.2 hlt
    have hres := leafPte_lt_reserved he.2 hlt
    have hr := hM _ e hm
    have hf : ¬ Faults (leafPte e.1 e.2) := by
      simp only [Faults, h0, h1, hr]
      simp
      omega
    have hl : isLeaf (leafPte e.1 e.2) = true := by rw [isLeaf, h1, hr, Bool.true_or]
    rw [hentry, if_neg hf, hl]
    rfl

theorem walk_pageTable (h : PageTable m root loc M) (hM : Readable M) (v : ℕ) :
    walk m v 2 root = (M (key v)).map fun e => (leafPte e.1 e.2, 0) := by
  have hpath : ∀ e, M (key v) = some e →
      ∃ t, loc [vpn1 v, vpn2 v] = some t ∧ ∃ u, loc [vpn2 v] = some u := by
    intro e he
    obtain ⟨-, -, t, ht⟩ := h.mapped he
    exact ⟨t, ht, (h.parent ht).2⟩
  cases h1 : loc [vpn2 v] with
  | none =>
    rw [walk_none h h.root_loc (by simp) (by rw [vpnAt_two]; exact h1)]
    cases hM : M (key v) with
    | none => rfl
    | some e =>
      obtain ⟨-, -, u, hu⟩ := hpath e hM
      rw [h1] at hu
      cases hu
  | some t1 =>
    rw [walk_branch h h.root_loc (by simp) (by rw [vpnAt_two]; exact h1)]
    cases h0 : loc [vpn1 v, vpn2 v] with
    | none =>
      rw [walk_none h h1 (by simp) (by rw [vpnAt_one]; exact h0)]
      cases hM : M (key v) with
      | none => rfl
      | some e =>
        obtain ⟨t, ht, -⟩ := hpath e hM
        rw [h0] at ht
        cases ht
    | some t0 =>
      rw [walk_branch h h1 (by simp) (by rw [vpnAt_one]; exact h0), walk_leaf h hM h0 rfl,
        vpnAt_zero]
      rfl

/-- On a canonical address the hardware finds the leaf of the map. -/
theorem translate_pageTable (h : PageTable m root loc M) (hM : Readable M) {v : ℕ}
    (hv : Canonical v) :
    translate m root v =
      (M (key v)).map fun e => (leafPte e.1 e.2, e.1 + v % pageSize) := by
  rw [translate, if_pos hv, walk_pageTable h hM]
  cases hm : M (key v) with
  | none => rfl
  | some e =>
    obtain ⟨he, hlt⟩ := h.frames hm
    simp only [Option.map_some, Option.bind_some, Nat.mul_zero, Nat.pow_zero, Nat.mod_one,
      Nat.add_zero, if_true, ppnOf_leafPte he.1 he.2 hlt]
    rfl

theorem userAccess_pageTable (h : PageTable m root loc M) (hM : Readable M) {v : ℕ}
    (hv : Canonical v) :
    userAccess m root v = (M (key v)).bind fun e =>
      if e.2.testBit 4 then some (e.1 + v % pageSize) else none := by
  rw [userAccess, translate_pageTable h hM hv]
  cases hm : M (key v) with
  | none => rfl
  | some e =>
    obtain ⟨he, hlt⟩ := h.frames hm
    simp only [Option.map_some, Option.bind_some, (leafPte_bits he.2 hlt).2.2.2.2]

theorem userWrite_pageTable (h : PageTable m root loc M) (hM : Readable M) {v : ℕ}
    (hv : Canonical v) :
    userWrite m root v = (M (key v)).bind fun e =>
      if e.2.testBit 4 && e.2.testBit 2 then some (e.1 + v % pageSize) else none := by
  rw [userWrite, translate_pageTable h hM hv]
  cases hm : M (key v) with
  | none => rfl
  | some e =>
    obtain ⟨he, hlt⟩ := h.frames hm
    obtain ⟨-, -, hw, -, hu⟩ := leafPte_bits he.2 hlt
    simp only [Option.map_some, Option.bind_some, hw, hu]

end

theorem userAccess_canonical {m : Mem} {root v a : ℕ} (h : userAccess m root v = some a) :
    Canonical v := by
  by_contra hc
  simp [userAccess, translate, hc] at h

end Mmu
