import Mathlib.Data.Nat.ModEq

/-!
# Between two walls

A counter that moves one step at a time and turns around at 0 and at a bound runs through a
triangle wave.
-/
namespace TriangleWave

structure Runner where
  pos : ℕ
  up : Bool
  deriving DecidableEq

def start : Runner := ⟨0, true⟩

/-- One step, and a turn at a wall. -/
def bounce (bound : ℕ) (r : Runner) : Runner :=
  let pos := if r.up then r.pos + 1 else r.pos - 1
  ⟨pos, if pos = 0 ∨ pos = bound then !r.up else r.up⟩

def atPhase (bound phase : ℕ) : Runner :=
  if phase < bound then ⟨phase, true⟩ else ⟨2 * bound - phase, false⟩

def wave (bound n : ℕ) : Runner := atPhase bound (n % (2 * bound))

variable {bound n : ℕ}

theorem bounce_atPhase (hb : 0 < bound) {phase : ℕ} (hp : phase < 2 * bound) :
    bounce bound (atPhase bound phase) = atPhase bound ((phase + 1) % (2 * bound)) := by
  by_cases hup : phase < bound
  · rw [atPhase, if_pos hup, Nat.mod_eq_of_lt (by omega)]
    by_cases hwall : phase + 1 = bound
    · rw [atPhase, if_neg (by omega)]
      simp only [bounce, if_true, hwall, or_true, Bool.not_true, Runner.mk.injEq, and_true]
      omega
    · rw [atPhase, if_pos (by omega)]
      simp [bounce, hwall]
  · rw [atPhase, if_neg hup]
    have hpos : 2 * bound - phase - 1 ≠ bound := by omega
    by_cases hwall : phase + 1 = 2 * bound
    · have hzero : 2 * bound - phase - 1 = 0 := by omega
      rw [hwall, Nat.mod_self, atPhase, if_pos hb]
      simp [bounce, hzero]
    · have hne : 2 * bound - phase - 1 ≠ 0 := by omega
      rw [Nat.mod_eq_of_lt (by omega), atPhase, if_neg (by omega)]
      simp only [bounce, Bool.false_eq_true, if_false, hne, hpos, or_self, Runner.mk.injEq,
        and_true]
      omega

theorem wave_zero (hb : 0 < bound) : wave bound 0 = start := by
  rw [wave, Nat.zero_mod, atPhase, if_pos hb]
  rfl

theorem wave_succ (hb : 0 < bound) (n : ℕ) : wave bound (n + 1) = bounce bound (wave bound n) := by
  rw [wave, wave, bounce_atPhase hb (Nat.mod_lt _ (by omega)), Nat.mod_add_mod]

theorem wave_le (bound n : ℕ) : (wave bound n).pos ≤ bound := by
  unfold wave atPhase
  split
  · next h => exact Nat.le_of_lt h
  · next h =>
    dsimp only
    omega

theorem wave_room (hb : 0 < bound) (n : ℕ) :
    if (wave bound n).up then (wave bound n).pos < bound else 0 < (wave bound n).pos := by
  have hlt := Nat.mod_lt n (show 0 < 2 * bound by omega)
  unfold wave atPhase
  split
  · next h => exact h
  · next h =>
    simp only [Bool.false_eq_true, if_false]
    omega

theorem wave_add (bound n k : ℕ) : wave bound (n + 2 * bound * k) = wave bound n := by
  rw [wave, wave, Nat.add_mul_mod_self_left]

end TriangleWave
