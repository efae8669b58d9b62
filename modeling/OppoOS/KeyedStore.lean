import Mathlib.Data.List.Basic
import Mathlib.Logic.Function.Basic

/-!
# Stores whose operations may fail

A store maps keys to values. A read that succeeds returns the value of its key, a write that
succeeds sets it, and what fails has no effect.
-/
namespace KeyedStore

open Function

inductive Operation (κ ν : Type*) where
  | read (k : κ) (result : Option ν)
  | write (k : κ) (v : ν) (ok : Bool)

variable {κ ν : Type*} [DecidableEq κ]

inductive Step : (κ → ν) → Operation κ ν → (κ → ν) → Prop where
  | read (s k) : Step s (.read k (some (s k))) s
  | readFailed (s k) : Step s (.read k none) s
  | write (s k v) : Step s (.write k v true) (update s k v)
  | writeFailed (s k v) : Step s (.write k v false) s

inductive Run (s : κ → ν) : List (Operation κ ν) → (κ → ν) → Prop where
  | nil : Run s [] s
  | snoc {ops t op u} : Run s ops t → Step t op u → Run s (ops ++ [op]) u

def written (k : κ) : Operation κ ν → Option ν
  | .write j v true => if j = k then some v else none
  | .write _ _ false | .read _ _ => none

def lastWrite (ops : List (Operation κ ν)) (k : κ) : Option ν :=
  (ops.filterMap (written k)).getLast?

theorem lastWrite_snoc (ops : List (Operation κ ν)) (op : Operation κ ν) (k : κ) :
    lastWrite (ops ++ [op]) k = (written k op).or (lastWrite ops k) := by
  unfold lastWrite
  rw [List.filterMap_append]
  cases h : written k op with
  | none => simp [h]
  | some v => simp [h]

theorem Step.contents {s t : κ → ν} {op : Operation κ ν} (h : Step s op t) (k : κ) :
    t k = (written k op).getD (s k) := by
  cases h with
  | read | readFailed | writeFailed => rfl
  | write j v =>
    by_cases hk : j = k
    · subst hk
      simp [written]
    · simp [written, hk, Ne.symm hk]

/-- Every key holds its last successful write, or what it held at first. -/
theorem Run.contents {s t : κ → ν} {ops : List (Operation κ ν)} (h : Run s ops t) (k : κ) :
    t k = (lastWrite ops k).getD (s k) := by
  induction h with
  | nil => rfl
  | snoc _ hs ih =>
    rw [hs.contents, ih, lastWrite_snoc]
    cases written k _ <;> rfl

theorem Run.split {s u : κ → ν} {pre post : List (Operation κ ν)} {op : Operation κ ν}
    (h : Run s (pre ++ op :: post) u) : ∃ t t', Run s pre t ∧ Step t op t' := by
  generalize hl : pre ++ op :: post = l at h
  induction h generalizing post with
  | nil => simp at hl
  | @snoc ops t last u hr hs ih =>
    rcases List.eq_nil_or_concat post with rfl | ⟨front, x, rfl⟩
    · obtain ⟨rfl, hop⟩ := List.append_inj' hl rfl
      obtain rfl : op = last := by simpa using hop
      exact ⟨t, u, hr, hs⟩
    · have hl' : (pre ++ op :: front) ++ [x] = ops ++ [last] := by simpa using hl
      have hfront : pre ++ op :: front = ops := (List.append_inj' hl' rfl).1
      exact ih hfront

/-- A successful read returns the last successful write before it. -/
theorem Run.read {s u : κ → ν} {pre post : List (Operation κ ν)} {k : κ} {v : ν}
    (h : Run s (pre ++ .read k (some v) :: post) u) : v = (lastWrite pre k).getD (s k) := by
  obtain ⟨t, t', hr, hs⟩ := h.split
  cases hs
  exact hr.contents k

end KeyedStore
