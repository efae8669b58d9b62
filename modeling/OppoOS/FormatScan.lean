import Mathlib.Data.List.TakeWhile
import Mathlib.Logic.Relation

/-!
# Scanning a terminated string with an escape character

The loop `while (*p) { if (*p == esc) { p++; directive(*p); } else literal(*p); p++; }` over a
memory that goes on behind the terminator. The character after an escape is taken without
asking whether it is the terminator.
-/
namespace FormatScan

variable {α σ : Type*}

structure Actions (α σ : Type*) where
  directive : α → σ → Option σ
  literal : α → σ → σ

structure Scan (σ : Type*) where
  pos : ℕ
  data : σ

def StringAt (nul : α) (text : ℕ → α) : ℕ → List α → Prop
  | p, [] => text p = nul
  | p, c :: l => text p = c ∧ c ≠ nul ∧ StringAt nul text (p + 1) l

instance instDecidableStringAt [DecidableEq α] (nul : α) (text : ℕ → α) :
    (p : ℕ) → (l : List α) → Decidable (StringAt nul text p l)
  | p, [] => inferInstanceAs (Decidable (text p = nul))
  | p, c :: l =>
    have : Decidable (StringAt nul text (p + 1) l) := instDecidableStringAt nul text (p + 1) l
    inferInstanceAs (Decidable (text p = c ∧ c ≠ nul ∧ StringAt nul text (p + 1) l))

theorem StringAt.terminator {nul : α} {text : ℕ → α} {p : ℕ} {l : List α}
    (h : StringAt nul text p l) : text (p + l.length) = nul := by
  induction l generalizing p with
  | nil => exact h
  | cons c l ih =>
    rw [List.length_cons, Nat.add_comm l.length, ← Nat.add_assoc]
    exact ih h.2.2

theorem StringAt.ne {nul : α} {text : ℕ → α} {p k : ℕ} {l : List α} (h : StringAt nul text p l)
    (hp : p ≤ k) (hk : k < p + l.length) : text k ≠ nul := by
  induction l generalizing p with
  | nil => exact absurd hp (Nat.not_le_of_lt hk)
  | cons c l ih =>
    rw [List.length_cons] at hk
    rcases Nat.eq_or_lt_of_le hp with rfl | hlt
    · exact h.1 ▸ h.2.1
    · exact ih h.2.2 hlt (by omega)

inductive Item (α : Type*) where
  | plain (c : α)
  | directive (c : α)
  deriving DecidableEq

section
variable [DecidableEq α]

/-- The loop body; `none` where a directive has no meaning. -/
def iterate (esc : α) (A : Actions α σ) (text : ℕ → α) (s : Scan σ) : Option (Scan σ) :=
  if text s.pos = esc then do
    let data ← A.directive (text (s.pos + 1)) s.data
    some ⟨s.pos + 2, data⟩
  else some ⟨s.pos + 1, A.literal (text s.pos) s.data⟩

/-- The loop, for at most `fuel` tests of its condition. -/
def run (esc nul : α) (A : Actions α σ) (text : ℕ → α) : ℕ → Scan σ → Option (Scan σ)
  | 0, _ => none
  | fuel + 1, s =>
    if text s.pos = nul then some s else (iterate esc A text s).bind (run esc nul A text fuel)

inductive Reaches (esc nul : α) (A : Actions α σ) (text : ℕ → α) (s : Scan σ) :
    Scan σ → Prop where
  | refl : Reaches esc nul A text s s
  | tail {t u} : Reaches esc nul A text s t → text t.pos ≠ nul → iterate esc A text t = some u →
      Reaches esc nul A text s u

/-- The positions that the test of the condition and the loop body read. -/
def Reads (esc nul : α) (text : ℕ → α) (s : Scan σ) (k : ℕ) : Prop :=
  k = s.pos ∨ (text s.pos ≠ nul ∧ text s.pos = esc ∧ k = s.pos + 1)

/-- The characters as the loop takes them. An escape at the very end takes the terminator. -/
def items (esc nul : α) : List α → List (Item α)
  | [] => []
  | [c] => if c = esc then [.directive nul] else [.plain c]
  | c :: d :: l =>
    if c = esc then .directive d :: items esc nul l else .plain c :: items esc nul (d :: l)

def perform (A : Actions α σ) : List (Item α) → σ → Option σ
  | [], d => some d
  | .plain c :: l, d => perform A l (A.literal c d)
  | .directive c :: l, d => (A.directive c d).bind (perform A l)

def Lone (esc : α) : List α → Prop
  | [] => False
  | [c] => c = esc
  | c :: d :: l => if c = esc then Lone esc l else Lone esc (d :: l)

instance instDecidableLone (esc : α) : (l : List α) → Decidable (Lone esc l)
  | [] => inferInstanceAs (Decidable False)
  | [c] => inferInstanceAs (Decidable (c = esc))
  | c :: d :: l =>
    have := instDecidableLone esc l
    have := instDecidableLone esc (d :: l)
    inferInstanceAs (Decidable (if c = esc then Lone esc l else Lone esc (d :: l)))

def trailing (esc : α) (l : List α) : ℕ := (l.reverse.takeWhile (· = esc)).length

end

section
variable [DecidableEq α] {esc : α}

theorem trailing_cons (c : α) (l : List α) :
    trailing esc (c :: l) =
      if (∀ d ∈ l, d = esc) ∧ c = esc then l.length + 1 else trailing esc l := by
  unfold trailing
  rw [List.reverse_cons, List.takeWhile_append]
  by_cases hl : ∀ d ∈ l, d = esc
  · have hall : l.reverse.takeWhile (· = esc) = l.reverse :=
      List.takeWhile_eq_self_iff.mpr fun d hd => decide_eq_true (hl d (List.mem_reverse.mp hd))
    by_cases hc : c = esc
    · rw [if_pos (by rw [hall]), if_pos ⟨hl, hc⟩]
      simp [hc]
    · rw [if_pos (by rw [hall]), if_neg fun h => hc h.2, hall]
      simp [hc]
  · have hnot : (l.reverse.takeWhile (· = esc)).length ≠ l.reverse.length := by
      intro hlen
      have heq := (List.takeWhile_prefix (fun d => decide (d = esc))).eq_of_length hlen
      refine hl fun d hd => ?_
      have hd' := List.mem_takeWhile_imp (heq.symm ▸ List.mem_reverse.mpr hd)
      exact of_decide_eq_true hd'
    rw [if_neg hnot, if_neg fun h => hl h.1]

/-- Escapes pair up from the left, so one is left over when the last run of them is odd. -/
theorem lone_iff (l : List α) : Lone esc l ↔ trailing esc l % 2 = 1 := by
  induction l using Lone.induct esc with
  | case1 => simp [Lone, trailing]
  | case2 c =>
    rw [Lone, trailing_cons]
    by_cases hc : c = esc
    · simp [hc]
    · simp [hc, trailing]
  | case3 d l ih =>
    rw [Lone, if_pos rfl, ih, trailing_cons, trailing_cons]
    by_cases hl : ∀ x ∈ l, x = esc
    · have hlen : trailing esc l = l.length := by
        unfold trailing
        rw [List.takeWhile_eq_self_iff.mpr fun x hx =>
          decide_eq_true (hl x (List.mem_reverse.mp hx)), List.length_reverse]
      by_cases hd : d = esc
      · have hall : ∀ x ∈ d :: l, x = esc := List.forall_mem_cons.mpr ⟨hd, hl⟩
        rw [if_pos ⟨hall, rfl⟩, hlen, List.length_cons]
        omega
      · rw [if_neg fun h => hd (h.1 d List.mem_cons_self), if_neg fun h => hd h.2]
    · rw [if_neg fun h => hl fun x hx => h.1 x (List.mem_cons_of_mem _ hx),
        if_neg fun h => hl h.1]
  | case4 c d l hc ih => rw [Lone, if_neg hc, ih, trailing_cons c, if_neg fun h => hc h.2]

end

section
variable [DecidableEq α] {esc nul : α} {A : Actions α σ} {text : ℕ → α}

theorem run_unique {s t u : Scan σ} {m n : ℕ} (ht : run esc nul A text m s = some t)
    (hu : run esc nul A text n s = some u) : t = u := by
  induction m generalizing s n with
  | zero => cases ht
  | succ m ih =>
    cases n with
    | zero => cases hu
    | succ n =>
      rw [run] at ht hu
      split at ht
      · next hn =>
        rw [if_pos hn] at hu
        exact Option.some.inj (ht.symm.trans hu)
      · next hn =>
        rw [if_neg hn] at hu
        obtain ⟨v, hv, hmt⟩ := Option.bind_eq_some_iff.mp ht
        obtain ⟨v', hv', hnu⟩ := Option.bind_eq_some_iff.mp hu
        obtain rfl := Option.some.inj (hv.symm.trans hv')
        exact ih hmt hnu

theorem iterate_plain {p : ℕ} {c : α} (hp : text p = c) (hc : c ≠ esc) (d : σ) :
    iterate esc A text ⟨p, d⟩ = some ⟨p + 1, A.literal c d⟩ := by
  rw [iterate, if_neg (hp ▸ hc), hp]

theorem iterate_directive {p : ℕ} {c : α} (hp : text p = esc) (hc : text (p + 1) = c) (d : σ) :
    iterate esc A text ⟨p, d⟩ = (A.directive c d).map fun d' => ⟨p + 2, d'⟩ := by
  rw [iterate, if_pos hp, hc]
  cases A.directive c d <;> rfl

theorem run_end {p : ℕ} (hp : text p = nul) (d : σ) (fuel : ℕ) :
    run esc nul A text (fuel + 1) ⟨p, d⟩ = some ⟨p, d⟩ := if_pos hp

theorem run_step {p : ℕ} (hp : text p ≠ nul) (d : σ) (fuel : ℕ) :
    run esc nul A text (fuel + 1) ⟨p, d⟩ =
      (iterate esc A text ⟨p, d⟩).bind (run esc nul A text fuel) := if_neg hp

theorem run_string {p : ℕ} {l : List α} (hs : StringAt nul text p l) (hl : ¬ Lone esc l) (d : σ)
    {fuel : ℕ} (hf : l.length < fuel) :
    run esc nul A text fuel ⟨p, d⟩ =
      (perform A (items esc nul l) d).map fun d' => ⟨p + l.length, d'⟩ := by
  obtain ⟨fuel, rfl⟩ := Nat.exists_eq_add_one.mpr (Nat.zero_lt_of_lt hf)
  induction l using items.induct esc generalizing p d fuel with
  | case1 =>
    rw [run_end hs, items, perform]
    rfl
  | case2 => exact absurd rfl hl
  | case3 c hc =>
    obtain ⟨hp, hn, hend⟩ := hs
    obtain ⟨fuel, rfl⟩ := Nat.exists_eq_add_one.mpr (Nat.pos_of_lt_add_left hf)
    rw [run_step (hp ▸ hn), iterate_plain hp hc, Option.bind_some, run_end hend, items, if_neg hc]
    rfl
  | case4 c l ih =>
    obtain ⟨hp, hn, hc, hcn, hrest⟩ := hs
    simp only [Lone, if_true] at hl
    simp only [List.length_cons] at hf
    obtain ⟨fuel, rfl⟩ := Nat.exists_eq_add_one.mpr (by omega : 0 < fuel)
    rw [run_step (hp ▸ hn), iterate_directive hp hc, items, if_pos rfl, perform]
    cases A.directive c d with
    | none => rfl
    | some d' =>
      simp only [Option.map_some, Option.bind_some]
      rw [ih hrest hl d' fuel (by omega)]
      simp only [List.length_cons, Nat.add_assoc, Nat.add_comm 2]
  | case5 c e l hc ih =>
    obtain ⟨hp, hn, hrest⟩ := hs
    simp only [Lone, if_neg hc] at hl
    simp only [List.length_cons] at hf
    obtain ⟨fuel, rfl⟩ := Nat.exists_eq_add_one.mpr (by omega : 0 < fuel)
    rw [run_step (hp ▸ hn), iterate_plain hp hc, Option.bind_some, items, if_neg hc, perform,
      ih hrest hl _ fuel (by simp only [List.length_cons]; omega)]
    simp only [List.length_cons, Nat.add_assoc, Nat.add_comm 1]

def Inside (esc nul : α) (text : ℕ → α) (e : ℕ) (s : Scan σ) : Prop :=
  ∃ l, StringAt nul text s.pos l ∧ ¬ Lone esc l ∧ s.pos + l.length = e

/-- Nothing behind position `e` is read, and no state depends on it. -/
structure Stops (esc nul : α) (A : Actions α σ) (text : ℕ → α) (d : σ) (e : ℕ) : Prop where
  reads : ∀ s k, Reaches esc nul A text ⟨0, d⟩ s → Reads esc nul text s k → k ≤ e
  depends : ∀ text', (∀ k, k ≤ e → text' k = text k) →
    ∀ s, Reaches esc nul A text ⟨0, d⟩ s → Reaches esc nul A text' ⟨0, d⟩ s

theorem Inside.cases {e : ℕ} {s : Scan σ} (hi : Inside esc nul text e s)
    (hn : text s.pos ≠ nul) :
    (text s.pos ≠ esc ∧ s.pos + 1 ≤ e ∧ ∀ d, Inside esc nul text e ⟨s.pos + 1, (d : σ)⟩) ∨
      (text s.pos = esc ∧ s.pos + 2 ≤ e ∧ ∀ d, Inside esc nul text e ⟨s.pos + 2, (d : σ)⟩) := by
  obtain ⟨l, hs, hl, he⟩ := hi
  cases l with
  | nil => exact absurd hs hn
  | cons c l =>
    obtain ⟨hp, -, hrest⟩ := hs
    subst hp
    cases l with
    | nil =>
      rw [List.length_singleton] at he
      exact Or.inl ⟨hl, he.le, fun _ => ⟨[], hrest, id, he⟩⟩
    | cons c l =>
      simp only [List.length_cons] at he
      by_cases hc : text s.pos = esc
      · rw [Lone, if_pos hc] at hl
        exact Or.inr ⟨hc, by omega, fun _ => ⟨l, hrest.2.2, hl, by simp only; omega⟩⟩
      · rw [Lone, if_neg hc] at hl
        refine Or.inl ⟨hc, by omega, fun _ => ⟨c :: l, hrest, hl, ?_⟩⟩
        simp only [List.length_cons]
        omega

theorem Inside.pos_le {e : ℕ} {s : Scan σ} (hi : Inside esc nul text e s) : s.pos ≤ e := by
  obtain ⟨l, -, -, he⟩ := hi
  omega

theorem Inside.reads_le {e k : ℕ} {s : Scan σ} (hi : Inside esc nul text e s)
    (hk : Reads esc nul text s k) : k ≤ e := by
  rcases hk with rfl | ⟨hn, hc, rfl⟩
  · exact hi.pos_le
  · rcases hi.cases hn with ⟨hne, -⟩ | ⟨-, hle, -⟩
    · exact absurd hc hne
    · omega

theorem Inside.iterate {e : ℕ} {s t : Scan σ} (hi : Inside esc nul text e s)
    (hn : text s.pos ≠ nul) (ht : iterate esc A text s = some t) : Inside esc nul text e t := by
  rcases hi.cases hn with ⟨hc, -, hin⟩ | ⟨hc, -, hin⟩
  · rw [FormatScan.iterate, if_neg hc] at ht
    exact Option.some.inj ht ▸ hin _
  · rw [FormatScan.iterate, if_pos hc] at ht
    obtain ⟨d, -, hd⟩ := Option.bind_eq_some_iff.mp ht
    exact Option.some.inj hd ▸ hin _

theorem Inside.reaches {e : ℕ} {s t : Scan σ} (hi : Inside esc nul text e s)
    (h : Reaches esc nul A text s t) : Inside esc nul text e t := by
  induction h with
  | refl => exact hi
  | tail _ hn ht ih => exact ih.iterate hn ht

theorem iterate_congr {text' : ℕ → α} {s : Scan σ} (hn : text s.pos ≠ nul)
    (h : ∀ k, Reads esc nul text s k → text' k = text k) :
    iterate esc A text' s = iterate esc A text s := by
  have h0 := h s.pos (Or.inl rfl)
  unfold iterate
  rw [h0]
  split
  · next hc => rw [h (s.pos + 1) (Or.inr ⟨hn, hc, rfl⟩)]
  · rfl

theorem Inside.stops {e : ℕ} {d : σ} (hi : Inside esc nul text e ⟨0, d⟩) :
    Stops esc nul A text d e where
  reads s k hr hk := (hi.reaches hr).reads_le hk
  depends text' heq s hr := by
    induction hr with
    | refl => exact .refl
    | @tail t u hr hn ht ih =>
      have ht' := hi.reaches hr
      have hsame := iterate_congr (A := A) hn fun k hk => heq k (ht'.reads_le hk)
      exact .tail ih ((heq t.pos ht'.pos_le).symm ▸ hn) (hsame.trans ht)

theorem Reaches.trans {s t u : Scan σ} (h : Reaches esc nul A text s t)
    (k : Reaches esc nul A text t u) : Reaches esc nul A text s u := by
  induction k with
  | refl => exact h
  | tail _ hn hu ih => exact .tail ih hn hu

theorem Reaches.head {s t u : Scan σ} (hn : text s.pos ≠ nul)
    (ht : iterate esc A text s = some t) (h : Reaches esc nul A text t u) :
    Reaches esc nul A text s u := Reaches.trans (.tail .refl hn ht) h

theorem reaches_past {p : ℕ} {l : List α} (hs : StringAt nul text p l) (hl : Lone esc l)
    {d d' : σ} (hd : perform A (items esc nul l) d = some d') :
    Reaches esc nul A text ⟨p, d⟩ ⟨p + l.length + 1, d'⟩ := by
  induction l using items.induct esc generalizing p d with
  | case1 => exact absurd hl id
  | case2 =>
    obtain ⟨hp, hn, hend⟩ := hs
    rw [items, if_pos rfl, perform] at hd
    obtain ⟨e, he, hd⟩ := Option.bind_eq_some_iff.mp hd
    obtain rfl := Option.some.inj hd
    refine .head (hp ▸ hn) ?_ .refl
    rw [iterate_directive hp hend, he]
    rfl
  | case3 c hc => exact absurd hl hc
  | case4 c l ih =>
    obtain ⟨hp, hn, hc, hcn, hrest⟩ := hs
    simp only [Lone, if_true] at hl
    rw [items, if_pos rfl, perform] at hd
    obtain ⟨e, he, hd⟩ := Option.bind_eq_some_iff.mp hd
    have hrun := ih hrest hl hd
    refine .head (t := ⟨p + 2, e⟩) (hp ▸ hn) ?_ ?_
    · rw [iterate_directive hp hc, he]
      rfl
    · convert hrun using 2
      simp only [List.length_cons]
      omega
  | case5 c e l hc ih =>
    obtain ⟨hp, hn, hrest⟩ := hs
    simp only [Lone, if_neg hc] at hl
    rw [items, if_neg hc, perform] at hd
    refine .head (hp ▸ hn) (iterate_plain hp hc d) ?_
    convert ih hrest hl hd using 2
    simp only [List.length_cons]
    omega

/-- Nothing behind the terminator is read exactly when no escape is left over before it. -/
theorem stops_iff {l : List α} {d : σ} (hs : StringAt nul text 0 l)
    (hd : perform A (items esc nul l) d ≠ none) :
    Stops esc nul A text d l.length ↔ ¬ Lone esc l := by
  constructor
  · intro hst hl
    obtain ⟨d', hd'⟩ := Option.ne_none_iff_exists'.mp hd
    have hr := reaches_past hs hl hd'
    have hle := hst.reads _ _ hr (Or.inl rfl)
    simp only at hle
    omega
  · intro hl
    exact Inside.stops ⟨l, hs, hl, Nat.zero_add _⟩

end

end FormatScan
