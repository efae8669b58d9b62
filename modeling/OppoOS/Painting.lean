import Mathlib.Data.Set.Piecewise
import Mathlib.Order.SymmDiff
import Mathlib.Data.Set.Lattice
import Mathlib.Order.ConditionallyCompleteLattice.Basic
import Mathlib.Data.BitVec

/-!
# Painting, and loops that paint

Painting a set of cells gives all of them one value. A loop over a counter whose bound has
the counter's own width ends, and a loop whose iterations paint paints the union.
-/
namespace Painting

section
variable {κ ν : Type*}

open Classical in
noncomputable def paint (R : Set κ) (v : ν) (f : κ → ν) : κ → ν := R.piecewise (fun _ => v) f

variable {R S : Set κ} {v : ν} {f : κ → ν} {k : κ}

open Classical in
theorem paint_inside (h : k ∈ R) : paint R v f k = v := Set.piecewise_eq_of_mem _ _ _ h

open Classical in
theorem paint_outside (h : k ∉ R) : paint R v f k = f k := Set.piecewise_eq_of_notMem _ _ _ h

@[simp] theorem paint_empty (v : ν) (f : κ → ν) : paint ∅ v f = f := by
  funext k
  exact paint_outside (Set.notMem_empty k)

theorem paint_paint (R S : Set κ) (v : ν) (f : κ → ν) :
    paint S v (paint R v f) = paint (R ∪ S) v f := by
  funext k
  by_cases hS : k ∈ S
  · rw [paint_inside hS, paint_inside (Set.mem_union_right R hS)]
  · rw [paint_outside hS]
    by_cases hR : k ∈ R
    · rw [paint_inside hR, paint_inside (Set.mem_union_left S hR)]
    · rw [paint_outside hR, paint_outside fun h => h.elim hR hS]

theorem paint_singleton [DecidableEq κ] (k : κ) (v : ν) (f : κ → ν) :
    paint {k} v f = Function.update f k v := by
  funext j
  by_cases hj : j = k
  · subst hj
    rw [paint_inside (Set.mem_singleton j), Function.update_self]
  · have hout : j ∉ ({k} : Set κ) := hj
    rw [paint_outside hout, Function.update_of_ne hj]

theorem paint_eq_paint_iff : paint R v f = paint S v f ↔ ∀ k ∈ symmDiff R S, f k = v := by
  constructor
  · rintro h k (⟨hR, hS⟩ | ⟨hS, hR⟩)
    · rw [← paint_outside (v := v) (f := f) hS, ← h, paint_inside hR]
    · rw [← paint_outside (v := v) (f := f) hR, h, paint_inside hS]
  · intro h
    funext k
    by_cases hR : k ∈ R <;> by_cases hS : k ∈ S
    · rw [paint_inside hR, paint_inside hS]
    · rw [paint_inside hR, paint_outside hS, h k (Or.inl ⟨hR, hS⟩)]
    · rw [paint_outside hR, paint_inside hS, h k (Or.inr ⟨hS, hR⟩)]
    · rw [paint_outside hR, paint_outside hS]

end

section
variable {w : ℕ} {σ : Type*}

theorem counter_add_one {i bound : BitVec w} (h : i < bound) : (i + 1).toNat = i.toNat + 1 := by
  rw [BitVec.lt_def] at h
  have hb := bound.isLt
  have hw : w ≠ 0 := by
    rintro rfl
    omega
  have h1 : (1 : BitVec w).toNat = 1 := Nat.mod_eq_of_lt (Nat.one_lt_two_pow hw)
  rw [BitVec.toNat_add, h1, Nat.mod_eq_of_lt (by omega)]

/-- `for (; i < bound; i++)`. -/
def forUp (body : BitVec w → σ → σ) (i bound : BitVec w) (s : σ) : σ :=
  if _h : i < bound then forUp body (i + 1) bound (body i s) else s
termination_by bound.toNat - i.toNat
decreasing_by
  have hi := counter_add_one _h
  rw [BitVec.lt_def] at _h
  omega

variable {body : BitVec w → σ → σ} {i bound : BitVec w} {s : σ}

/-- The invariant rule: `P n` holds when the counter stands at `n`. -/
theorem forUp_rule (P : ℕ → σ → Prop) (h0 : P i.toNat s)
    (hstep : ∀ (j : BitVec w) t, i ≤ j → j < bound → P j.toNat t → P (j.toNat + 1) (body j t)) :
    P (max i.toNat bound.toNat) (forUp body i bound s) := by
  induction hn : bound.toNat - i.toNat generalizing i s with
  | zero =>
    have hge : ¬ i < bound := by
      rw [BitVec.lt_def]
      omega
    rw [forUp, dif_neg hge, max_eq_left (by omega)]
    exact h0
  | succ n ih =>
    have hlt : i < bound := by
      rw [BitVec.lt_def]
      omega
    have hi := counter_add_one hlt
    have hnext : P (i + 1).toNat (body i s) := hi ▸ hstep i s (BitVec.le_refl i) hlt h0
    have hrest := ih hnext (fun j t hj => hstep j t (by
      rw [BitVec.le_def] at hj ⊢
      omega)) (by omega)
    rw [forUp, dif_pos hlt]
    rwa [hi, max_eq_right (by omega), ← max_eq_right (by omega : i.toNat ≤ bound.toNat)] at hrest

variable {κ ν : Type*}

/-- The cells of the sets `R n` with `lo ≤ n < hi`. -/
def between (R : ℕ → Set κ) (lo hi : ℕ) : Set κ := {k | ∃ n, (lo ≤ n ∧ n < hi) ∧ k ∈ R n}

theorem between_self (R : ℕ → Set κ) (n : ℕ) : between R n n = ∅ := by
  ext k
  refine iff_of_false ?_ (Set.notMem_empty k)
  rintro ⟨m, hm, -⟩
  omega

theorem between_succ (R : ℕ → Set κ) {lo n : ℕ} (h : lo ≤ n) :
    between R lo (n + 1) = between R lo n ∪ R n := by
  ext k
  constructor
  · rintro ⟨m, hm, hk⟩
    rcases Nat.lt_succ_iff_lt_or_eq.mp hm.2 with hlt | rfl
    · exact Or.inl ⟨m, ⟨hm.1, hlt⟩, hk⟩
    · exact Or.inr hk
  · rintro (⟨m, hm, hk⟩ | hk)
    · exact ⟨m, by omega, hk⟩
    · exact ⟨n, by omega, hk⟩

theorem between_max (R : ℕ → Set κ) (lo hi : ℕ) : between R lo (max lo hi) = between R lo hi := by
  rcases Nat.le_total lo hi with h | h
  · rw [max_eq_right h]
  · rw [max_eq_left h]
    ext k
    constructor <;> rintro ⟨n, hn, -⟩ <;> omega

/-- A loop whose iterations each paint one set paints their union. `Q` is what the iterations
need of the state and keep. -/
theorem forUp_paint (view : σ → κ → ν) (R : ℕ → Set κ) (v : ν) (Q : σ → Prop) (hQ : Q s)
    (hbody : ∀ (j : BitVec w) t, j < bound → Q t →
      Q (body j t) ∧ view (body j t) = paint (R j.toNat) v (view t)) :
    Q (forUp body i bound s) ∧ view (forUp body i bound s) =
      paint (between R i.toNat bound.toNat) v (view s) := by
  have hrun := @forUp_rule _ _ body i bound s
    (fun n t => Q t ∧ view t = paint (between R i.toNat n) v (view s)) ?_ ?_
  · rwa [between_max] at hrun
  · exact ⟨hQ, by rw [between_self, paint_empty]⟩
  · rintro j t hij hj ⟨ht, hv⟩
    obtain ⟨hQ', hb⟩ := hbody j t hj ht
    refine ⟨hQ', ?_⟩
    rw [hb, hv, paint_paint, between_succ R hij]

end

end Painting
