import Mathlib.Data.List.Basic
import Mathlib.Data.Fin.Basic
import Mathlib.Data.Nat.ModEq
import Mathlib.Logic.Function.Basic

/-!
# Rings with running numbers

A producer appends entries to a log and stores each in the slot given by its number modulo
the size of the ring; a consumer takes them in order. The counters both sides share may be
reduced modulo any multiple of the size.
-/
namespace RingBuffer

open Function

variable {α : Type*} {n : ℕ} [NeZero n]

def slot (n : ℕ) [NeZero n] (j : ℕ) : Fin n := Fin.ofNat n j

/-- The entries from number `taken` on are in their slots. -/
structure Window (ring : Fin n → α) (log : List α) (taken : ℕ) : Prop where
  taken_le : taken ≤ log.length
  stored : ∀ j a, taken ≤ j → log[j]? = some a → ring (slot n j) = a

theorem slot_ne {j k : ℕ} (h : j < k) (hk : k - j < n) : slot n j ≠ slot n k := by
  intro he
  have hm : j % n = k % n := congrArg Fin.val he
  have hd : n ∣ k - j := (Nat.modEq_iff_dvd' h.le).mp hm
  have hle := Nat.le_of_dvd (by omega) hd
  omega

theorem slot_mod {m : ℕ} (h : n ∣ m) (j : ℕ) : slot n (j % m) = slot n j := by
  apply Fin.ext
  exact Nat.mod_mod_of_dvd j h

/-- Counters less than one revolution apart agree only when they are equal. -/
theorem mod_eq_iff {m a b : ℕ} (hle : b ≤ a) (hlt : a - b < m) : a % m = b % m ↔ a = b := by
  constructor
  · intro h
    have hd : m ∣ a - b := (Nat.modEq_iff_dvd' hle).mp h.symm
    rcases Nat.eq_zero_or_pos (a - b) with hz | hpos
    · omega
    · have := Nat.le_of_dvd hpos hd
      omega
  · rintro rfl
    rfl

section
variable {ring : Fin n → α} {log : List α} {taken : ℕ}

theorem window_empty (ring : Fin n → α) : Window ring [] 0 where
  taken_le := Nat.le_refl 0
  stored := by
    intro j a _ h
    simp at h

/-- While there is room the next slot holds no pending entry. -/
theorem Window.write (h : Window ring log taken) (hroom : log.length < taken + n) (a : α) :
    Window (update ring (slot n log.length) a) log taken where
  taken_le := h.taken_le
  stored := by
    intro j b hj hb
    obtain ⟨hlt, -⟩ := List.getElem?_eq_some_iff.mp hb
    rw [update_of_ne (slot_ne hlt (by omega))]
    exact h.stored j b hj hb

theorem Window.publish (h : Window ring log taken) {a : α} (ha : ring (slot n log.length) = a) :
    Window ring (log ++ [a]) taken where
  taken_le := by
    rw [List.length_append]
    exact h.taken_le.trans (Nat.le_add_right _ _)
  stored := by
    intro j b hj hb
    rcases Nat.lt_or_ge j log.length with hlt | hge
    · rw [List.getElem?_append_left hlt] at hb
      exact h.stored j b hj hb
    · obtain ⟨hlt, hb⟩ := List.getElem?_eq_some_iff.mp hb
      rw [List.length_append, List.length_singleton] at hlt
      obtain rfl : j = log.length := by omega
      rw [List.getElem_concat_length rfl] at hb
      rw [ha, hb]

theorem Window.take (h : Window ring log taken) (hlt : taken < log.length) :
    log.take (taken + 1) = log.take taken ++ [ring (slot n taken)] ∧
      Window ring log (taken + 1) := by
  constructor
  · have hget := List.getElem?_eq_getElem hlt
    rw [h.stored taken _ le_rfl hget, List.take_add_one, hget]
    rfl
  · exact ⟨hlt, fun j a hj ha => h.stored j a (by omega) ha⟩

end

end RingBuffer
