import Mathlib.Data.List.Nodup
import OppoOS.ByteMemory

/-!
# A RISC-V hart and register frames

The instructions that save and restore registers, on 64-bit registers and a flat memory.
A frame is a run of words above the stack pointer, one for each register of a list.
-/
namespace RiscV

open ByteMemory Function

abbrev Word := BitVec 64

/-- The general registers except `zero`. -/
inductive Reg where
  | ra | sp | gp | tp
  | t0 | t1 | t2 | t3 | t4 | t5 | t6
  | s0 | s1 | s2 | s3 | s4 | s5 | s6 | s7 | s8 | s9 | s10 | s11
  | a0 | a1 | a2 | a3 | a4 | a5 | a6 | a7
  deriving DecidableEq, Repr

inductive Csr where
  | sepc | sscratch | satp | sstatus
  deriving DecidableEq, Repr

structure Hart where
  regs : Reg → Word
  csrs : Csr → Word
  mem : Mem

inductive Instr where
  | addi (rd rs : Reg) (imm : ℤ)
  | sd (rs : Reg) (offset : ℕ) (base : Reg)
  | ld (rd : Reg) (offset : ℕ) (base : Reg)
  | csrrw (rd : Reg) (csr : Csr) (rs : Reg)
  | csrr (rd : Reg) (csr : Csr)
  | csrw (csr : Csr) (rs : Reg)
  | mv (rd rs : Reg)
  deriving DecidableEq, Repr

def loadWord (m : Mem) (a : ℕ) : Word := BitVec.ofNat 64 (load64 m a)
def storeWord (m : Mem) (a : ℕ) (v : Word) : Mem := store64 m a v.toNat

def Hart.address (h : Hart) (base : Reg) (offset : ℕ) : ℕ :=
  (h.regs base + BitVec.ofNat 64 offset).toNat

def Hart.setReg (h : Hart) (r : Reg) (v : Word) : Hart := { h with regs := update h.regs r v }
def Hart.setCsr (h : Hart) (c : Csr) (v : Word) : Hart := { h with csrs := update h.csrs c v }

def Hart.step (h : Hart) : Instr → Hart
  | .addi rd rs imm => h.setReg rd (h.regs rs + BitVec.ofInt 64 imm)
  | .sd rs offset base => { h with mem := storeWord h.mem (h.address base offset) (h.regs rs) }
  | .ld rd offset base => h.setReg rd (loadWord h.mem (h.address base offset))
  | .csrrw rd csr rs => (h.setReg rd (h.csrs csr)).setCsr csr (h.regs rs)
  | .csrr rd csr => h.setReg rd (h.csrs csr)
  | .csrw csr rs => h.setCsr csr (h.regs rs)
  | .mv rd rs => h.setReg rd (h.regs rs)

def Hart.exec (h : Hart) (is : List Instr) : Hart := is.foldl Hart.step h

/-- `sd r, 8 * k(sp)`, for the registers of the list and consecutive `k`. -/
def saveFrom : ℕ → List Reg → List Instr
  | _, [] => []
  | k, r :: rs => .sd r (8 * k) .sp :: saveFrom (k + 1) rs

/-- `ld r, 8 * k(sp)`. -/
def loadFrom : ℕ → List Reg → List Instr
  | _, [] => []
  | k, r :: rs => .ld r (8 * k) .sp :: loadFrom (k + 1) rs

@[simp] theorem exec_nil (h : Hart) : h.exec [] = h := rfl
@[simp] theorem exec_cons (h : Hart) (i : Instr) (is : List Instr) :
    h.exec (i :: is) = (h.step i).exec is := rfl

theorem exec_append (h : Hart) (is js : List Instr) : h.exec (is ++ js) = (h.exec is).exec js :=
  List.foldl_append

@[simp] theorem loadWord_storeWord_same (m : Mem) (a : ℕ) (v : Word) :
    loadWord (storeWord m a v) a = v := by
  unfold loadWord storeWord
  rw [load64_store64_same, Nat.mod_eq_of_lt v.isLt, BitVec.ofNat_toNat, BitVec.setWidth_eq]

theorem storeWord_outside (m : Mem) (a : ℕ) (v : Word) {x : ℕ} (h : x < a ∨ a + 8 ≤ x) :
    storeWord m a v x = m x := store64_outside m a _ x h

theorem loadWord_congr {m m' : Mem} {a : ℕ} (h : AgreeOn m m' a 8) :
    loadWord m' a = loadWord m a := by
  unfold loadWord
  rw [load64_congr h]

theorem loadWord_storeWord_apart (m : Mem) {a b : ℕ} (v : Word) (h : b + 8 ≤ a ∨ a + 8 ≤ b) :
    loadWord (storeWord m a v) b = loadWord m b :=
  loadWord_congr fun _ _ _ => storeWord_outside m a v (by omega)

theorem address_eq {h : Hart} {base : Reg} {offset : ℕ}
    (hlt : (h.regs base).toNat + offset < 2 ^ 64) :
    h.address base offset = (h.regs base).toNat + offset := by
  unfold Hart.address
  rw [BitVec.toNat_add, BitVec.toNat_ofNat]
  omega

def FrameAt (m : Mem) (a k : ℕ) (rs : List Reg) (v : Reg → Word) : Prop :=
  ∀ i r, rs[i]? = some r → loadWord m (a + 8 * (k + i)) = v r

theorem FrameAt.tail {m : Mem} {a k : ℕ} {r : Reg} {rs : List Reg} {v : Reg → Word}
    (hf : FrameAt m a k (r :: rs) v) : FrameAt m a (k + 1) rs v := by
  intro i q hq
  have h := hf (i + 1) q hq
  rwa [Nat.add_comm i 1, ← Nat.add_assoc] at h

theorem FrameAt.congr {m m' : Mem} {a k : ℕ} {rs : List Reg} {v : Reg → Word}
    (hf : FrameAt m a k rs v)
    (hm : ∀ x, a + 8 * k ≤ x → x < a + 8 * (k + rs.length) → m' x = m x) :
    FrameAt m' a k rs v := by
  intro i r hr
  have hi := (List.getElem?_eq_some_iff.mp hr).1
  rw [loadWord_congr, hf i r hr]
  intro x hl hx
  exact hm x (by omega) (by omega)

theorem FrameAt.unique {m : Mem} {a k : ℕ} {rs : List Reg} {v w : Reg → Word}
    (hv : FrameAt m a k rs v) (hw : FrameAt m a k rs w) : ∀ r ∈ rs, v r = w r := by
  intro r hr
  obtain ⟨i, hi⟩ := List.mem_iff_getElem?.mp hr
  exact (hv i r hi).symm.trans (hw i r hi)

structure Saved (h h' : Hart) (a k : ℕ) (rs : List Reg) : Prop where
  regs : h'.regs = h.regs
  csrs : h'.csrs = h.csrs
  frame : FrameAt h'.mem a k rs h.regs
  outside : ∀ x, x < a + 8 * k ∨ a + 8 * (k + rs.length) ≤ x → h'.mem x = h.mem x

theorem exec_saveFrom (h : Hart) (k : ℕ) (rs : List Reg)
    (hlt : (h.regs .sp).toNat + 8 * (k + rs.length) ≤ 2 ^ 64) :
    Saved h (h.exec (saveFrom k rs)) (h.regs .sp).toNat k rs := by
  induction rs generalizing h k with
  | nil =>
    refine ⟨rfl, rfl, ?_, fun _ _ => rfl⟩
    intro i r hr
    cases hr
  | cons r rs ih =>
    rw [List.length_cons] at hlt
    have haddr : h.address .sp (8 * k) = (h.regs .sp).toNat + 8 * k := address_eq (by omega)
    have hs := ih (h.step (.sd r (8 * k) .sp)) (k + 1)
      (by simp only [Hart.step]; omega)
    simp only [Hart.step, haddr] at hs
    rw [saveFrom, exec_cons]
    simp only [Hart.step, haddr]
    constructor
    · exact hs.regs
    · exact hs.csrs
    · intro i q hq
      cases i with
      | zero =>
        obtain rfl : r = q := by simpa using hq
        have hkeep := loadWord_congr (a := (h.regs .sp).toNat + 8 * k) fun x _ hx =>
          hs.outside x (.inl (by omega))
        exact hkeep.trans (loadWord_storeWord_same _ _ _)
      | succ i =>
        rw [Nat.add_comm i 1, ← Nat.add_assoc]
        exact hs.frame i q (by simpa using hq)
    · intro x hx
      rw [List.length_cons] at hx
      rw [hs.outside x (by omega)]
      exact storeWord_outside _ _ _ (by omega)

structure Loaded (h h' : Hart) (a k : ℕ) (rs : List Reg) : Prop where
  mem : h'.mem = h.mem
  csrs : h'.csrs = h.csrs
  frame : FrameAt h.mem a k rs h'.regs
  others : ∀ r, r ∉ rs → h'.regs r = h.regs r

theorem exec_loadFrom (h : Hart) (k : ℕ) (rs : List Reg) (hnd : rs.Nodup) (hsp : .sp ∉ rs)
    (hlt : (h.regs .sp).toNat + 8 * (k + rs.length) ≤ 2 ^ 64) :
    Loaded h (h.exec (loadFrom k rs)) (h.regs .sp).toNat k rs := by
  induction rs generalizing h k with
  | nil =>
    refine ⟨rfl, rfl, ?_, fun _ _ => rfl⟩
    intro i r hr
    cases hr
  | cons r rs ih =>
    rw [List.length_cons] at hlt
    obtain ⟨hr, hnd⟩ := List.nodup_cons.mp hnd
    have hne := List.ne_of_not_mem_cons hsp
    have hsp := List.not_mem_of_not_mem_cons hsp
    have haddr : h.address .sp (8 * k) = (h.regs .sp).toNat + 8 * k := address_eq (by omega)
    have hkeep : (h.step (.ld r (8 * k) .sp)).regs .sp = h.regs .sp := update_of_ne hne _ _
    have hl := ih (h.step (.ld r (8 * k) .sp)) (k + 1) hnd hsp (by rw [hkeep]; omega)
    rw [hkeep] at hl
    rw [loadFrom, exec_cons]
    constructor
    · exact hl.mem
    · exact hl.csrs
    · intro i q hq
      cases i with
      | zero =>
        obtain rfl : r = q := by simpa using hq
        rw [hl.others r hr, Nat.add_zero]
        simp only [Hart.step, Hart.setReg, haddr, update_self]
      | succ i =>
        rw [Nat.add_comm i 1, ← Nat.add_assoc]
        exact hl.frame i q (by simpa using hq)
    · intro q hq
      rw [hl.others q (List.not_mem_of_not_mem_cons hq)]
      exact update_of_ne (List.ne_of_not_mem_cons hq) _ _

end RiscV
