import OppoOS.RiscV

/-!
# The assembly of traps and context switches

`kernel_trap_context_save` in `arch/trap.c` and `switch_context` in
`kernel/schedule/proc.c`, up to their calls and returns.
-/
namespace ContextSwitch

open ByteMemory RiscV Function

/-- `struct trap_frame` without its last field, the stack pointer. -/
def trapFrame : List Reg :=
  [.ra, .gp, .tp, .t0, .t1, .t2, .t3, .t4, .t5, .t6,
    .a0, .a1, .a2, .a3, .a4, .a5, .a6, .a7,
    .s0, .s1, .s2, .s3, .s4, .s5, .s6, .s7, .s8, .s9, .s10, .s11]

def slot (r : Reg) : ℕ := (trapFrame ++ [Reg.sp]).idxOf r

/-- `kernel_trap_context_save` up to `call handle_trap`. -/
def trapEntry : List Instr :=
  [.csrrw .sp .sscratch .sp, .addi .sp .sp (-8 * 31)] ++ saveFrom 0 trapFrame ++
    [.csrr .a0 .sscratch, .sd .a0 (8 * 30) .sp, .addi .a0 .sp (8 * 31), .csrw .sscratch .a0,
      .mv .a0 .sp]

/-- From the return of `handle_trap` up to `sret`. -/
def trapExit : List Instr := loadFrom 0 trapFrame ++ [.ld .sp (8 * 30) .sp]

def switchFrame : List Reg :=
  [.ra, .s0, .s1, .s2, .s3, .s4, .s5, .s6, .s7, .s8, .s9, .s10, .s11]

/-- `switch_context` up to the change of stacks. -/
def switchSave : List Instr :=
  [.addi .sp .sp (-13 * 8)] ++ saveFrom 0 switchFrame ++ [.sd .sp 0 .a0]

/-- From the change of stacks up to `ret`. -/
def switchLoad : List Instr :=
  [.ld .sp 0 .a1] ++ loadFrom 0 switchFrame ++ [.addi .sp .sp (13 * 8)]

def switchContext : List Instr := switchSave ++ switchLoad

theorem frame_fields {m : Mem} {a : ℕ} {v : Reg → Word} (hf : FrameAt m a 0 trapFrame v)
    (hsp : loadWord m (a + 8 * 30) = v .sp) (r : Reg) : loadWord m (a + 8 * slot r) = v r := by
  by_cases h : r = .sp
  · have hslot : slot .sp = 30 := by decide
    rw [h, hslot, hsp]
  · have hget : trapFrame[slot r]? = some r := by
      revert h
      cases r <;> decide
    have hw := hf (slot r) r hget
    rwa [Nat.zero_add] at hw

theorem toNat_addi_neg {w : Word} {n : ℕ} (h : n ≤ w.toNat) :
    (w + BitVec.ofInt 64 (-n)).toNat = w.toNat - n := by
  have hlt := w.isLt
  rw [BitVec.toNat_add, BitVec.toNat_ofInt]
  omega

theorem toNat_addi {w : Word} {n : ℕ} (h : w.toNat + n < 2 ^ 64) :
    (w + BitVec.ofInt 64 n).toNat = w.toNat + n := by
  rw [BitVec.toNat_add, BitVec.toNat_ofInt]
  omega

/-- After the entry code: the registers of the interrupted code are in a frame below `top`,
the control registers are as they were. -/
structure Entered (h h' : Hart) (top : ℕ) : Prop where
  sp : (h'.regs .sp).toNat = top - 248
  arg : h'.regs .a0 = h'.regs .sp
  csrs : h'.csrs = h.csrs
  frame : ∀ r, loadWord h'.mem (top - 248 + 8 * slot r) = h.regs r
  outside : ∀ x, x < top - 248 ∨ top ≤ x → h'.mem x = h.mem x

theorem exec_trapEntry (h : Hart) (hroom : 248 ≤ (h.csrs .sscratch).toNat) :
    Entered h (h.exec trapEntry) (h.csrs .sscratch).toNat := by
  have hlt := (h.csrs .sscratch).isLt
  generalize htop : (h.csrs .sscratch).toNat = top at *
  rw [trapEntry, exec_append, exec_append]
  generalize hg : h.exec [.csrrw .sp .sscratch .sp, .addi .sp .sp (-8 * 31)] = g
  have hgsp : (g.regs .sp).toNat = top - 248 := by
    rw [← hg, ← htop]
    simp only [exec_cons, exec_nil, Hart.step, Hart.setReg, Hart.setCsr, update_self]
    exact toNat_addi_neg (n := 248) (htop ▸ hroom)
  have hgregs : ∀ r, r ≠ .sp → g.regs r = h.regs r := by
    intro r hr
    rw [← hg]
    simp only [exec_cons, exec_nil, Hart.step, Hart.setReg, Hart.setCsr, update_of_ne hr]
  have hgcsrs : g.csrs = update h.csrs .sscratch (h.regs .sp) := by rw [← hg]; rfl
  have hgmem : g.mem = h.mem := by rw [← hg]; rfl
  have hs := exec_saveFrom g 0 trapFrame (by rw [hgsp]; simp only [trapFrame, List.length]; omega)
  generalize g.exec (saveFrom 0 trapFrame) = u at hs
  rw [hgsp] at hs
  have husp : (u.regs .sp).toNat = top - 248 := by rw [hs.regs, hgsp]
  have hu : u.csrs = update h.csrs .sscratch (h.regs .sp) := by rw [hs.csrs, hgcsrs]
  have hne : Reg.sp ≠ .a0 := by decide
  have haddr (a0 : Word) (m : Mem) :
      Hart.address ⟨update u.regs .a0 a0, update h.csrs .sscratch (h.regs .sp), m⟩ .sp (8 * 30) =
        top - 8 := by
    rw [address_eq]
    · simp only [update_of_ne hne, husp]
      omega
    · simp only [update_of_ne hne, husp]
      omega
  have htop' : u.regs .sp + BitVec.ofInt 64 (8 * 31) = h.csrs .sscratch := by
    apply BitVec.eq_of_toNat_eq
    exact (toNat_addi (n := 248) (by omega)).trans (by omega)
  simp only [exec_cons, exec_nil, Hart.step, Hart.setReg, Hart.setCsr, haddr, hu, update_self,
    update_idem, update_of_ne hne, htop', update_eq_self]
  have hframe : FrameAt u.mem (top - 248) 0 trapFrame h.regs := by
    intro i r hr
    rw [hs.frame i r hr]
    apply hgregs
    rintro rfl
    exact absurd (List.mem_of_getElem? hr) (by decide)
  have hlen : trapFrame.length = 30 := rfl
  constructor
  · exact husp
  · rfl
  · rfl
  · apply frame_fields
    · apply hframe.congr
      intro x _ hx
      exact storeWord_outside _ _ _ (by omega)
    · have h240 : top - 248 + 8 * 30 = top - 8 := by omega
      rw [h240, loadWord_storeWord_same]
  · intro x hx
    dsimp only
    rw [storeWord_outside _ _ _ (by omega), hs.outside x (by omega), hgmem]

theorem exec_trapExit (h : Hart) (hroom : (h.regs .sp).toNat + 248 ≤ 2 ^ 64) :
    (∀ r, (h.exec trapExit).regs r = loadWord h.mem ((h.regs .sp).toNat + 8 * slot r)) ∧
      (h.exec trapExit).csrs = h.csrs ∧ (h.exec trapExit).mem = h.mem := by
  have hlen : trapFrame.length = 30 := rfl
  have hl := exec_loadFrom h 0 trapFrame (by decide) (by decide) (by omega)
  have hsp := hl.others .sp (by decide)
  rw [trapExit, exec_append]
  generalize h.exec (loadFrom 0 trapFrame) = u at hl hsp
  have haddr : u.address .sp (8 * 30) = (h.regs .sp).toNat + 8 * 30 := by
    rw [address_eq (by rw [hsp]; omega), hsp]
  simp only [exec_cons, exec_nil, Hart.step, Hart.setReg, haddr, hl.mem]
  refine ⟨fun r => (frame_fields ?_ ?_ r).symm, hl.csrs, trivial⟩
  · intro i r hr
    have hne : r ≠ .sp := by
      rintro rfl
      exact absurd (List.mem_of_getElem? hr) (by decide)
    rw [update_of_ne hne]
    exact hl.frame i r hr
  · rw [update_self]

/-- After the first half of `switch_context`: the caller's registers are in a frame below its
stack pointer, and the new stack pointer is where `a0` points. -/
structure SwitchedOut (h h' : Hart) : Prop where
  frame : FrameAt h'.mem ((h.regs .sp).toNat - 104) 0 switchFrame h.regs
  saved : (loadWord h'.mem (h.regs .a0).toNat).toNat = (h.regs .sp).toNat - 104
  next : h'.regs .a1 = h.regs .a1
  csrs : h'.csrs = h.csrs
  outside : ∀ x, (x < (h.regs .sp).toNat - 104 ∨ (h.regs .sp).toNat ≤ x) →
    (x < (h.regs .a0).toNat ∨ (h.regs .a0).toNat + 8 ≤ x) → h'.mem x = h.mem x

theorem exec_switchSave (h : Hart) (hroom : 104 ≤ (h.regs .sp).toNat)
    (hapart : (h.regs .a0).toNat + 8 ≤ (h.regs .sp).toNat - 104 ∨
      (h.regs .sp).toNat ≤ (h.regs .a0).toNat) : SwitchedOut h (h.exec switchSave) := by
  have hlt := (h.regs .sp).isLt
  have hlen : switchFrame.length = 13 := rfl
  generalize hsp : (h.regs .sp).toNat = top at *
  rw [switchSave, exec_append, exec_append]
  generalize hg : h.exec [.addi .sp .sp (-13 * 8)] = g
  have hgsp : (g.regs .sp).toNat = top - 104 := by
    rw [← hg, ← hsp]
    simp only [exec_cons, exec_nil, Hart.step, Hart.setReg, update_self]
    exact toNat_addi_neg (n := 104) (hsp ▸ hroom)
  have hgregs : ∀ r, r ≠ .sp → g.regs r = h.regs r := by
    intro r hr
    rw [← hg]
    simp only [exec_cons, exec_nil, Hart.step, Hart.setReg, update_of_ne hr]
  have hgcsrs : g.csrs = h.csrs := by rw [← hg]; rfl
  have hgmem : g.mem = h.mem := by rw [← hg]; rfl
  have hs := exec_saveFrom g 0 switchFrame (by rw [hgsp]; omega)
  generalize g.exec (saveFrom 0 switchFrame) = u at hs
  rw [hgsp] at hs
  have hua0 : u.regs .a0 = h.regs .a0 := by rw [hs.regs, hgregs _ (by decide)]
  have haddr : u.address .a0 0 = (h.regs .a0).toNat := by
    rw [address_eq (by rw [hua0]; exact (h.regs .a0).isLt), hua0, Nat.add_zero]
  have husp : (u.regs .sp).toNat = top - 104 := by rw [hs.regs, hgsp]
  simp only [exec_cons, exec_nil, Hart.step, haddr]
  constructor
  · rw [hsp]
    refine FrameAt.congr (m := u.mem) ?_ ?_
    · intro i r hr
      rw [hs.frame i r hr]
      apply hgregs
      rintro rfl
      exact absurd (List.mem_of_getElem? hr) (by decide)
    · intro x hl hx
      exact storeWord_outside _ _ _ (by omega)
  · rw [loadWord_storeWord_same, husp, hsp]
  · rw [hs.regs, hgregs _ (by decide)]
  · rw [hs.csrs, hgcsrs]
  · intro x hx ha
    rw [hsp] at hx
    dsimp only
    rw [storeWord_outside _ _ _ ha, hs.outside x (by omega), hgmem]

theorem exec_switchLoad (h : Hart) {n : ℕ} (hn : (loadWord h.mem (h.regs .a1).toNat).toNat = n)
    (hroom : n + 104 < 2 ^ 64) :
    FrameAt h.mem n 0 switchFrame (h.exec switchLoad).regs ∧
      ((h.exec switchLoad).regs .sp).toNat = n + 104 ∧
      (h.exec switchLoad).csrs = h.csrs ∧ (h.exec switchLoad).mem = h.mem := by
  have hlen : switchFrame.length = 13 := rfl
  have haddr : h.address .a1 0 = (h.regs .a1).toNat := address_eq (h.regs .a1).isLt
  rw [switchLoad, exec_append, exec_append]
  generalize hg : h.exec [.ld .sp 0 .a1] = g
  have hgsp : (g.regs .sp).toNat = n := by
    rw [← hg, ← hn]
    simp only [exec_cons, exec_nil, Hart.step, Hart.setReg, update_self, haddr]
  have hgcsrs : g.csrs = h.csrs := by rw [← hg]; rfl
  have hgmem : g.mem = h.mem := by rw [← hg]; rfl
  have hl := exec_loadFrom g 0 switchFrame (by decide) (by decide) (by omega)
  have husp := hl.others .sp (by decide)
  generalize g.exec (loadFrom 0 switchFrame) = u at hl husp
  have hframe := hl.frame
  rw [hgsp, hgmem] at hframe
  simp only [exec_cons, exec_nil, Hart.step, Hart.setReg]
  refine ⟨?_, ?_, hl.csrs.trans hgcsrs, hl.mem.trans hgmem⟩
  · intro i r hr
    have hne : r ≠ .sp := by
      rintro rfl
      exact absurd (List.mem_of_getElem? hr) (by decide)
    rw [update_of_ne hne]
    exact hframe i r hr
  · rw [update_self, husp]
    exact (toNat_addi (n := 104) (by omega)).trans (by omega)

end ContextSwitch
