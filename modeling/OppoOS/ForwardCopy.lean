import Mathlib.Logic.Function.Basic
import Mathlib.Data.Nat.Find

/-!
# Copying forwards

Elements copied one at a time from low to high addresses, a given number of them or up to
one that stops the copy. Where the destination begins inside the source, the copy reads
what it has written.
-/
namespace ForwardCopy

open Function

variable {α : Type*}

def copyUp (m : ℕ → α) (dst src : ℕ) : ℕ → ℕ → α
  | 0 => m
  | n + 1 => copyUp (update m dst (m src)) (dst + 1) (src + 1) n

/-- Up to and with the first element that stops the copy; `none` while it still runs. -/
def copyUntil (stop : α → Prop) [DecidablePred stop] (m : ℕ → α) (dst src : ℕ) :
    ℕ → Option (ℕ → α)
  | 0 => none
  | fuel + 1 =>
    if stop (m src) then some (update m dst (m src))
    else copyUntil stop (update m dst (m src)) (dst + 1) (src + 1) fuel

/-- The address of the `i`-th element that is copied: below a destination in the source, the
same ones over and over. -/
def source (dst src i : ℕ) : ℕ := if src < dst then src + i % (dst - src) else src + i

def StopsAt (stop : α → Prop) (m : ℕ → α) (dst src k : ℕ) : Prop :=
  stop (m (source dst src k)) ∧ ∀ j, j < k → ¬ stop (m (source dst src j))

/-- The destination does not begin inside the `n` elements at `src`. -/
def Clear (dst src n : ℕ) : Prop := ¬ (src < dst ∧ dst < src + n)

instance (dst src n : ℕ) : Decidable (Clear dst src n) := inferInstanceAs (Decidable (¬ _))

variable {m : ℕ → α} {dst src n : ℕ}

theorem copyUp_succ (m : ℕ → α) (dst src n : ℕ) : copyUp m dst src (n + 1) =
    update (copyUp m dst src n) (dst + n) (copyUp m dst src n (src + n)) := by
  induction n generalizing m dst src with
  | zero => rfl
  | succ n ih =>
    have h := ih (update m dst (m src)) (dst + 1) (src + 1)
    rw [Nat.add_right_comm dst, Nat.add_right_comm src] at h
    exact h

theorem source_of_clear {i : ℕ} (h : Clear dst src (i + 1)) : source dst src i = src + i := by
  unfold source
  unfold Clear at h
  split
  · next hlt => rw [Nat.mod_eq_of_lt (by omega)]
  · rfl

theorem source_of_inside {i : ℕ} (hlt : src < dst) (hi : dst ≤ src + i) :
    source dst src i = source dst src (src + i - dst) := by
  have hmod : i % (dst - src) = (src + i - dst) % (dst - src) := by
    rw [Nat.mod_eq_sub_mod (by omega)]
    congr 1
    omega
  unfold source
  rw [if_pos hlt, if_pos hlt, hmod]

theorem copied_next {f : ℕ → α} (hf : ∀ x, f x =
    if dst ≤ x ∧ x < dst + n then m (source dst src (x - dst)) else m x) :
    f (src + n) = m (source dst src n) := by
  rw [hf]
  split
  · next hin => rw [source_of_inside (by omega) hin.1]
  · next hout => rw [source_of_clear (by unfold Clear; omega)]

theorem copyUp_apply (m : ℕ → α) (dst src n x : ℕ) : copyUp m dst src n x =
    if dst ≤ x ∧ x < dst + n then m (source dst src (x - dst)) else m x := by
  induction n generalizing x with
  | zero => rw [copyUp, if_neg (by omega)]
  | succ n ih =>
    rw [copyUp_succ, copied_next ih]
    by_cases hx : x = dst + n
    · rw [hx, update_self, if_pos (by omega), Nat.add_sub_cancel_left]
    · rw [update_of_ne hx, ih]
      by_cases hin : dst ≤ x ∧ x < dst + n
      · rw [if_pos hin, if_pos (by omega)]
      · rw [if_neg hin, if_neg (by omega)]

theorem copyUp_next (m : ℕ → α) (dst src n : ℕ) :
    copyUp m dst src n (src + n) = m (source dst src n) :=
  copied_next (copyUp_apply m dst src n)

theorem copyUp_outside {x : ℕ} (hx : x < dst ∨ dst + n ≤ x) : copyUp m dst src n x = m x := by
  rw [copyUp_apply, if_neg (by omega)]

theorem copyUp_of_clear (h : Clear dst src n) {i : ℕ} (hi : i < n) :
    copyUp m dst src n (dst + i) = m (src + i) := by
  rw [copyUp_apply, if_pos (by omega), Nat.add_sub_cancel_left, source_of_clear]
  unfold Clear at h ⊢
  omega

/-- A copy moves whatever is in its source exactly when the ranges are clear of each other. -/
theorem moves_iff_clear {a b : α} (hab : a ≠ b) (dst src n : ℕ) :
    (∀ (m : ℕ → α) (i : ℕ), i < n → copyUp m dst src n (dst + i) = m (src + i)) ↔
      Clear dst src n := by
  constructor
  · rintro h ⟨hlt, hin⟩
    -- one element differs from all others, where the destination begins
    have hd := h (fun x => if x = dst then a else b) (dst - src) (by omega)
    rw [copyUp_apply, if_pos (by omega), Nat.add_sub_cancel_left] at hd
    have hsource : source dst src (dst - src) = src := by
      unfold source
      rw [if_pos hlt, Nat.mod_self, Nat.add_zero]
    rw [hsource, if_neg (by omega), if_pos (by omega)] at hd
    exact hab hd.symm
  · exact fun h m i hi => copyUp_of_clear h hi

section
variable {stop : α → Prop}

def FirstStop (stop : α → Prop) (m : ℕ → α) (src n : ℕ) : Prop :=
  stop (m (src + n)) ∧ ∀ j, j < n → ¬ stop (m (src + j))

theorem FirstStop.unique {k : ℕ} (h : FirstStop stop m src n) (h' : FirstStop stop m src k) :
    n = k := by
  rcases Nat.lt_trichotomy n k with hlt | heq | hgt
  · exact absurd h.1 (h'.2 n hlt)
  · exact heq
  · exact absurd h'.1 (h.2 k hgt)

theorem FirstStop.stopsAt (h : FirstStop stop m src n) (hc : Clear dst src (n + 1)) :
    StopsAt stop m dst src n := by
  have hsource : ∀ j, j ≤ n → source dst src j = src + j := fun j hj =>
    source_of_clear (by unfold Clear at hc ⊢; omega)
  refine ⟨by rw [hsource n le_rfl]; exact h.1, fun j hj => ?_⟩
  rw [hsource j (Nat.le_of_lt hj)]
  exact h.2 j hj

theorem FirstStop.never_stops (h : FirstStop stop m src n) (hc : ¬ Clear dst src (n + 1)) (j : ℕ) :
    ¬ stop (m (source dst src j)) := by
  unfold Clear at hc
  have hlt : src < dst := by omega
  have hmod := Nat.mod_lt j (show 0 < dst - src by omega)
  unfold source
  rw [if_pos hlt]
  exact h.2 _ (by omega)

variable [DecidablePred stop]

theorem copyUntil_step (m : ℕ → α) (dst src j fuel : ℕ) :
    copyUntil stop (copyUp m dst src j) (dst + j) (src + j) (fuel + 1) =
      if stop (m (source dst src j)) then some (copyUp m dst src (j + 1))
      else copyUntil stop (copyUp m dst src (j + 1)) (dst + (j + 1)) (src + (j + 1)) fuel := by
  rw [copyUntil, copyUp_next, copyUp_succ, copyUp_next]
  rfl

theorem copyUntil_eq {k : ℕ} (h : StopsAt stop m dst src k) (fuel : ℕ) :
    copyUntil stop m dst src fuel =
      if k < fuel then some (copyUp m dst src (k + 1)) else none := by
  have hgo : ∀ fuel j, j ≤ k → copyUntil stop (copyUp m dst src j) (dst + j) (src + j) fuel =
      if k < j + fuel then some (copyUp m dst src (k + 1)) else none := by
    intro fuel
    induction fuel with
    | zero =>
      intro j hj
      rw [copyUntil, if_neg (by omega)]
    | succ fuel ih =>
      intro j hj
      rw [copyUntil_step]
      rcases Nat.lt_or_eq_of_le hj with hlt | rfl
      · rw [if_neg (h.2 j hlt), ih (j + 1) hlt, Nat.add_right_comm, Nat.add_assoc]
      · rw [if_pos h.1, if_pos (by omega)]
  have h0 := hgo fuel 0 (Nat.zero_le k)
  rw [Nat.zero_add] at h0
  exact h0

theorem copyUntil_none (h : ∀ j, ¬ stop (m (source dst src j))) (fuel : ℕ) :
    copyUntil stop m dst src fuel = none := by
  have hgo : ∀ fuel j, copyUntil stop (copyUp m dst src j) (dst + j) (src + j) fuel = none := by
    intro fuel
    induction fuel with
    | zero => exact fun _ => rfl
    | succ fuel ih =>
      intro j
      rw [copyUntil_step, if_neg (h j)]
      exact ih (j + 1)
  exact hgo fuel 0

end

end ForwardCopy
