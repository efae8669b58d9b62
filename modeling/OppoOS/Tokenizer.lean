import OppoOS.MaximalRuns
import OppoOS.FormatScan
import OppoOS.Printf
import OppoOS.WriteLog

/-!
# Cutting a string into tokens

`strchr` and `strtok_r` of `klib/string.c`. The string that is cut lies in memory; the
delimiters are an object of their own, the list of its bytes. `none` outside is a read past
that object or a loop that still runs.
-/
namespace Tokenizer

open ByteMemory CStrings Conversion FormatScan Printf MaximalRuns

/-- The loop of `strchr`: the index of the first `x`, nothing if the terminator comes first. -/
def strchrLoop (x : UInt8) : List UInt8 → ℕ → Option (Option ℕ)
  | [], _ => none
  | ch :: s, i =>
    if ch = x then some (some i)
    else if ch = 0 then some none
    else strchrLoop x s (i + 1)

def strchr (s : Option (List UInt8)) (c : UInt8) : Option (Option ℕ) :=
  match s with
  | none => some none
  | some s => strchrLoop c s 0

structure Call where
  token : Option ℕ
  mem : Mem
  savePtr : Option ℕ

/-- The first loop. At the terminator it returns from the function, which the flag says. -/
def skipDelims (delim : List UInt8) (m : Mem) : ℕ → ℕ → Option (ℕ × Bool)
  | 0, _ => none
  | fuel + 1, s => do
    let found ← strchr (some delim) (m s)
    if found.isSome then
      if m s = 0 then some (s, true) else skipDelims delim m fuel (s + 1)
    else some (s, false)

def skipToken (delim : List UInt8) (m : Mem) : ℕ → ℕ → Option ℕ
  | 0, _ => none
  | fuel + 1, s => do
    let found ← strchr (some delim) (m s)
    if found.isNone then skipToken delim m fuel (s + 1) else some s

def strtokR (m : Mem) (s : Option ℕ) (delim : Option (List UInt8)) (savePtr : Option ℕ)
    (fuel : ℕ) : Option Call :=
  match delim with
  | none => some ⟨none, m, savePtr⟩
  | some delim =>
    let s := if s = none then savePtr else s
    match s with
    | none => some ⟨none, m, savePtr⟩
    | some s => do
      let (s, ended) ← skipDelims delim m fuel s
      if ended then some ⟨none, m, some s⟩
      else
        let token := s
        let s ← skipToken delim m fuel s
        if m s ≠ 0 then some ⟨some token, Function.update m s 0, some (s + 1)⟩
        else some ⟨some token, m, some s⟩

/-- The first call gets the string, every further one NULL and what the last one left. -/
inductive Session (delim : List UInt8) (m : Mem) (p : ℕ) (savePtr : Option ℕ) : ℕ → Call → Prop
  where
  | first {c} (fuel) : strtokR m (some p) (some delim) savePtr fuel = some c →
      Session delim m p savePtr 0 c
  | next {k b c} (fuel) : Session delim m p savePtr k b →
      strtokR b.mem none (some delim) b.savePtr fuel = some c →
      Session delim m p savePtr (k + 1) c

/-- Neither a delimiter nor the terminator. -/
def TokenChar (delim : List UInt8) (ch : UInt8) : Prop := ch ≠ 0 ∧ ch ∉ cString delim

def TokenAt (delim : List UInt8) (m : Mem) (p e k : ℕ) : Prop :=
  p ≤ k ∧ k < e ∧ TokenChar delim (m k)

/-- The string with a NUL behind each of the runs that do not end at the terminator. -/
def cut (m : Mem) (e : ℕ) (runs : List (ℕ × ℕ)) : Mem :=
  WriteLog.apply m ((runs.filter fun r => r.2 < e).map fun r => (r.2, 0))

/-- What a call leaves in `*save_ptr`, given the next run. -/
def behind (e : ℕ) : Option (ℕ × ℕ) → ℕ
  | none => e
  | some r => if r.2 < e then r.2 + 1 else r.2

/-- What the call number `k` leaves: its run and the string cut behind all the runs so far. -/
def outcome (m : Mem) (e : ℕ) (runs : List (ℕ × ℕ)) (k : ℕ) : Call :=
  ⟨runs[k]?.map Prod.fst, cut m e (runs.take (k + 1)), some (behind e runs[k]?)⟩

/-- The tokens stand where they stood, each a string now, and nothing is changed but the
delimiters right behind them. -/
structure TokensCut (delim : List UInt8) (m m' : Mem) (tokens : List (ℕ × ℕ)) : Prop where
  string : ∀ r ∈ tokens, StringAt 0 m' r.1 ((List.range' r.1 (r.2 - r.1)).map m)
  frame : ∀ k, m' k ≠ m k → ∃ r ∈ tokens, k = r.2 ∧ m k ∈ cString delim ∧ m' k = 0

/-- `runs` are the runs of token characters from left to right; the calls return them, then
NULL. `*save_ptr` does not pass the terminator at `e`, and what lies behind it has no
influence. -/
structure Tokenizes (delim : List UInt8) (m : Mem) (p e : ℕ) (savePtr : Option ℕ)
    (runs : List (ℕ × ℕ)) : Prop where
  maximal : ∀ i j, (i, j) ∈ runs ↔ IsRun (TokenAt delim m p e) i j
  ordered : runs.Pairwise fun r s => r.2 < s.1
  calls : ∀ m' : Mem, (∀ k ≤ e, m' k = m k) →
    ∀ k c, Session delim m' p savePtr k c ↔ c = outcome m' e runs k
  within : ∀ k : ℕ, behind e runs[k]? ≤ e
  tokens : ∀ k, TokensCut delim m (outcome m e runs k).mem (runs.take (k + 1))

section
variable {delim : List UInt8} {m : Mem}

theorem strchrLoop_spec (h : 0 ∈ delim) (x : UInt8) (i : ℕ) :
    ∃ found, strchrLoop x delim i = some found ∧ (found = none ↔ TokenChar delim x) := by
  induction delim generalizing i with
  | nil => cases h
  | cons ch s ih =>
    by_cases hx : ch = x
    · subst hx
      refine ⟨some i, if_pos rfl, iff_of_false (Option.some_ne_none i) ?_⟩
      rintro ⟨h0, hmem⟩
      exact hmem (by simp [cString_cons h0])
    · rw [strchrLoop, if_neg hx]
      by_cases h0 : ch = 0
      · subst h0
        refine ⟨none, if_pos rfl, iff_of_true rfl ⟨Ne.symm hx, ?_⟩⟩
        simp
      · rw [if_neg h0]
        have hs : 0 ∈ s := (List.mem_cons.mp h).resolve_left (Ne.symm h0)
        obtain ⟨found, hf, hiff⟩ := ih hs (i + 1)
        refine ⟨found, hf, hiff.trans ?_⟩
        simp only [TokenChar, cString_cons h0, List.mem_cons, Ne.symm hx, false_or]

theorem strchr_spec (h : 0 ∈ delim) (c : UInt8) :
    ∃ found, strchr (some delim) c = some found ∧ (found = none ↔ TokenChar delim c) :=
  strchrLoop_spec h c 0

theorem skipDelims_step (h : 0 ∈ delim) {s : ℕ} (h0 : m s ≠ 0) (ht : ¬ TokenChar delim (m s))
    (fuel : ℕ) : skipDelims delim m (fuel + 1) s = skipDelims delim m fuel (s + 1) := by
  obtain ⟨found, hf, hiff⟩ := strchr_spec h (m s)
  have hs : found.isSome = true := Option.isSome_iff_ne_none.mpr fun hn => ht (hiff.mp hn)
  rw [skipDelims, hf]
  simp only [Option.bind_eq_bind, Option.bind_some, hs, if_true, if_neg h0]

theorem skipDelims_end (h : 0 ∈ delim) {s : ℕ} (h0 : m s = 0) (fuel : ℕ) :
    skipDelims delim m (fuel + 1) s = some (s, true) := by
  obtain ⟨found, hf, hiff⟩ := strchr_spec h (m s)
  have hs : found.isSome = true :=
    Option.isSome_iff_ne_none.mpr fun hn => (hiff.mp hn).1 h0
  rw [skipDelims, hf]
  simp only [Option.bind_eq_bind, Option.bind_some, hs, if_true, if_pos h0]

theorem skipDelims_token (h : 0 ∈ delim) {s : ℕ} (ht : TokenChar delim (m s)) (fuel : ℕ) :
    skipDelims delim m (fuel + 1) s = some (s, false) := by
  obtain ⟨found, hf, hiff⟩ := strchr_spec h (m s)
  obtain rfl := hiff.mpr ht
  rw [skipDelims, hf]
  rfl

theorem skipToken_step (h : 0 ∈ delim) {s : ℕ} (ht : TokenChar delim (m s)) (fuel : ℕ) :
    skipToken delim m (fuel + 1) s = skipToken delim m fuel (s + 1) := by
  obtain ⟨found, hf, hiff⟩ := strchr_spec h (m s)
  obtain rfl := hiff.mpr ht
  rw [skipToken, hf]
  rfl

theorem skipToken_end (h : 0 ∈ delim) {s : ℕ} (ht : ¬ TokenChar delim (m s)) (fuel : ℕ) :
    skipToken delim m (fuel + 1) s = some s := by
  obtain ⟨found, hf, hiff⟩ := strchr_spec h (m s)
  have hs : found.isNone = false :=
    Option.isNone_eq_false_iff.mpr (Option.isSome_iff_ne_none.mpr fun hn => ht (hiff.mp hn))
  rw [skipToken, hf]
  simp only [Option.bind_eq_bind, Option.bind_some, hs, Bool.false_eq_true, if_false]

theorem skipDelims_skips (h : 0 ∈ delim) (s n fuel : ℕ)
    (hs : ∀ k, s ≤ k → k < s + n → m k ≠ 0 ∧ ¬ TokenChar delim (m k)) :
    skipDelims delim m (fuel + n) s = skipDelims delim m fuel (s + n) := by
  induction n generalizing s with
  | zero => rfl
  | succ n ih =>
    obtain ⟨h0, ht⟩ := hs s le_rfl (by omega)
    rw [← Nat.add_assoc, skipDelims_step h h0 ht, ih (s + 1) fun k hk hlt => hs k (by omega)
      (by omega), Nat.add_assoc, Nat.add_comm 1]

theorem skipToken_skips (h : 0 ∈ delim) (s n fuel : ℕ)
    (hs : ∀ k, s ≤ k → k < s + n → TokenChar delim (m k)) :
    skipToken delim m (fuel + n) s = skipToken delim m fuel (s + n) := by
  induction n generalizing s with
  | zero => rfl
  | succ n ih =>
    rw [← Nat.add_assoc, skipToken_step h (hs s le_rfl (by omega)),
      ih (s + 1) fun k hk hlt => hs k (by omega) (by omega), Nat.add_assoc, Nat.add_comm 1]

end

/-- The call may go on at `a`: from there to the terminator at `e` the string is still as it was
in `m₀`, and these are its runs there. -/
structure Resumes (delim : List UInt8) (m₀ : Mem) (p e : ℕ) (m : Mem) (a : ℕ)
    (runs : List (ℕ × ℕ)) : Prop where
  lower : p ≤ a
  upper : a ≤ e
  same : ∀ k, a ≤ k → k ≤ e → m k = m₀ k
  runs : RunsFrom (TokenAt delim m₀ p e) a runs

section
variable {delim : List UInt8} {m₀ : Mem} {p e a : ℕ} {done runs : List (ℕ × ℕ)}

theorem cut_append (m₀ : Mem) (e : ℕ) (done : List (ℕ × ℕ)) (r : ℕ × ℕ) :
    cut m₀ e (done ++ [r]) =
      if r.2 < e then Function.update (cut m₀ e done) r.2 0 else cut m₀ e done := by
  unfold cut
  rw [List.filter_append, List.map_append, WriteLog.apply_append]
  split
  · next h => simp [h, WriteLog.apply_cons]
  · next h => simp [h]

theorem strtokR_resume (m : Mem) (delim : List UInt8) (savePtr : Option ℕ) (a fuel : ℕ) :
    strtokR m (some a) (some delim) savePtr fuel =
      strtokR m none (some delim) (some a) fuel := rfl

theorem not_tokenChar_iff {m : Mem} {k : ℕ} (hp : p ≤ k) (hk : k < e) (hm : m k = m₀ k) :
    ¬ TokenAt delim m₀ p e k ↔ ¬ TokenChar delim (m k) := by
  rw [hm]
  exact not_congr ⟨fun h => h.2.2, fun h => ⟨hp, hk, h⟩⟩

variable (hd : 0 ∈ delim) (hend : m₀ e = 0) (hne : ∀ k, p ≤ k → k < e → m₀ k ≠ 0)
include hd hend hne

theorem call_none {m : Mem} (hr : Resumes delim m₀ p e m a []) {fuel : ℕ} (hf : e - a < fuel) :
    strtokR m none (some delim) (some a) fuel = some ⟨none, m, some e⟩ := by
  have hlo := hr.lower
  have hhi := hr.upper
  obtain ⟨fuel, rfl⟩ : ∃ n, fuel = n + 1 + (e - a) := ⟨fuel - 1 - (e - a), by omega⟩
  have hskip := skipDelims_skips (m := m) hd a (e - a) (fuel + 1) fun k hk hlt => by
    have hm := hr.same k hk (by omega)
    refine ⟨hm ▸ hne k (by omega) (by omega), ?_⟩
    exact (not_tokenChar_iff (by omega) (by omega) hm).mp (hr.runs k hk)
  rw [Nat.add_sub_cancel' hhi, skipDelims_end hd ((hr.same e hhi le_rfl).trans hend)] at hskip
  simp only [strtokR, if_true, hskip, Option.bind_eq_bind, Option.bind_some]

theorem call_token {m : Mem} {i j : ℕ} {rest : List (ℕ × ℕ)}
    (hr : Resumes delim m₀ p e m a ((i, j) :: rest)) {fuel : ℕ} (hf : e - a < fuel) :
    (i < j ∧ j ≤ e) ∧ strtokR m none (some delim) (some a) fuel =
      if j < e then some ⟨some i, Function.update m j 0, some (j + 1)⟩
      else some ⟨some i, m, some j⟩ := by
  have hlo := hr.lower
  obtain ⟨⟨hai, hgap⟩, ⟨hij, hin⟩, hj, -⟩ := hr.runs
  have hje : j ≤ e := by
    have hlast := (hin (j - 1) (by omega) (by omega)).2.1
    omega
  refine ⟨⟨hij, hje⟩, ?_⟩
  obtain ⟨fuel₁, hf₁⟩ : ∃ n, fuel = n + 1 + (i - a) := ⟨fuel - 1 - (i - a), by omega⟩
  obtain ⟨fuel₂, hf₂⟩ : ∃ n, fuel = n + 1 + (j - i) := ⟨fuel - 1 - (j - i), by omega⟩
  have hskip := skipDelims_skips (m := m) hd a (i - a) (fuel₁ + 1) fun k hk hlt => by
    have hm := hr.same k hk (by omega)
    refine ⟨hm ▸ hne k (by omega) (by omega), ?_⟩
    exact (not_tokenChar_iff (by omega) (by omega) hm).mp (hgap k hk (by omega))
  have htok : ∀ k, i ≤ k → k < j → TokenChar delim (m k) := fun k hk hlt =>
    (hr.same k (by omega) (by omega)).symm ▸ (hin k hk hlt).2.2
  have hskip' := skipToken_skips (m := m) hd i (j - i) (fuel₂ + 1) fun k hk hlt =>
    htok k hk (by omega)
  have hjm := hr.same j (by omega) hje
  have hnot : ¬ TokenChar delim (m j) := by
    rcases Nat.lt_or_ge j e with hlt | hge
    · exact (not_tokenChar_iff (by omega) hlt hjm).mp hj
    · obtain rfl : j = e := by omega
      exact fun h => h.1 (hjm.trans hend)
  rw [Nat.add_sub_cancel' hai, skipDelims_token hd (htok i le_rfl hij), ← hf₁] at hskip
  rw [Nat.add_sub_cancel' hij.le, skipToken_end hd hnot, ← hf₂] at hskip'
  simp only [strtokR, if_true, hskip, hskip', Option.bind_eq_bind, Option.bind_some,
    Bool.false_eq_true, if_false]
  rcases Nat.lt_or_ge j e with hlt | hge
  · rw [if_pos hlt, if_pos (hjm ▸ hne j (by omega) hlt)]
  · obtain rfl : j = e := by omega
    rw [if_neg (lt_irrefl _), if_neg (not_not.mpr (hjm.trans hend))]

/-- One call takes one run off the list. -/
theorem call_spec (hr : Resumes delim m₀ p e (cut m₀ e done) a runs) {fuel : ℕ}
    (hf : e - a < fuel) :
    strtokR (cut m₀ e done) none (some delim) (some a) fuel =
        some ⟨runs.head?.map Prod.fst, cut m₀ e (done ++ runs.head?.toList),
          some (behind e runs.head?)⟩ ∧
      Resumes delim m₀ p e (cut m₀ e (done ++ runs.head?.toList)) (behind e runs.head?)
        runs.tail := by
  cases runs with
  | nil =>
    rw [call_none hd hend hne hr hf]
    simp only [List.head?_nil, Option.map_none, Option.toList_none, List.append_nil,
      List.tail_nil, behind]
    exact ⟨trivial, hr.lower.trans hr.upper, le_rfl,
      fun k hk hk' => hr.same k (hr.upper.trans hk) hk',
      fun k hk hT => absurd hT.2.1 (Nat.not_lt_of_le hk)⟩
  | cons r rest =>
    obtain ⟨i, j⟩ := r
    obtain ⟨⟨hij, hje⟩, hcall⟩ := call_token hd hend hne hr hf
    obtain ⟨⟨hai, -⟩, -, hj, hrest⟩ := hr.runs
    have hlo := hr.lower
    simp only [List.head?_cons, Option.map_some, Option.toList_some, List.tail_cons, cut_append,
      behind]
    rw [hcall]
    by_cases hlt : j < e
    · simp only [if_pos hlt]
      refine ⟨trivial, by omega, hlt, fun k hk hk' => ?_, hrest.succ hj⟩
      rw [Function.update_of_ne (by omega)]
      exact hr.same k (by omega) hk'
    · simp only [if_neg hlt]
      exact ⟨trivial, by omega, hje, fun k hk hk' => hr.same k (by omega) hk', hrest⟩

theorem call_outcome {k : ℕ}
    (hr : Resumes delim m₀ p e (cut m₀ e (runs.take k)) a (runs.drop k)) {fuel : ℕ}
    (hf : e - a < fuel) :
    strtokR (cut m₀ e (runs.take k)) none (some delim) (some a) fuel =
        some (outcome m₀ e runs k) ∧
      Resumes delim m₀ p e (cut m₀ e (runs.take (k + 1))) (behind e runs[k]?)
        (runs.drop (k + 1)) := by
  have h := call_spec hd hend hne hr hf
  rwa [List.head?_drop, List.tail_drop, ← List.take_add_one] at h

/-- After every call the rest of the string has the runs that are left. -/
theorem session_outcome (hpe : p ≤ e) (hr : RunsFrom (TokenAt delim m₀ p e) p runs)
    (savePtr : Option ℕ) (k : ℕ) :
    Session delim m₀ p savePtr k (outcome m₀ e runs k) ∧
      Resumes delim m₀ p e (cut m₀ e (runs.take (k + 1))) (behind e runs[k]?)
        (runs.drop (k + 1)) := by
  induction k with
  | zero =>
    have hstart : Resumes delim m₀ p e (cut m₀ e (runs.take 0)) p (runs.drop 0) :=
      ⟨le_rfl, hpe, fun _ _ _ => rfl, hr⟩
    obtain ⟨hcall, hnext⟩ := call_outcome hd hend hne hstart (Nat.lt_succ_self (e - p))
    exact ⟨.first _ ((strtokR_resume _ _ savePtr p _).trans hcall), hnext⟩
  | succ k ih =>
    obtain ⟨hsession, hres⟩ := ih
    obtain ⟨hcall, hnext⟩ := call_outcome hd hend hne hres (Nat.lt_succ_self _)
    exact ⟨.next _ hsession hcall, hnext⟩

end

section
variable {delim : List UInt8} {m : Mem}

theorem skipDelims_unique {s n k : ℕ} {x y : ℕ × Bool} (hx : skipDelims delim m n s = some x)
    (hy : skipDelims delim m k s = some y) : x = y := by
  induction n generalizing s k with
  | zero => cases hx
  | succ n ih =>
    cases k with
    | zero => cases hy
    | succ k =>
      obtain ⟨found, hf, hx⟩ := Option.bind_eq_some_iff.mp hx
      obtain ⟨found', hf', hy⟩ := Option.bind_eq_some_iff.mp hy
      obtain rfl := Option.some.inj (hf.symm.trans hf')
      cases found with
      | none => exact Option.some.inj (hx.symm.trans hy)
      | some i =>
        by_cases h0 : m s = 0
        · simp only [Option.isSome_some, if_true, if_pos h0] at hx hy
          exact Option.some.inj (hx.symm.trans hy)
        · simp only [Option.isSome_some, if_true, if_neg h0] at hx hy
          exact ih hx hy

theorem skipToken_unique {s n k x y : ℕ} (hx : skipToken delim m n s = some x)
    (hy : skipToken delim m k s = some y) : x = y := by
  induction n generalizing s k with
  | zero => cases hx
  | succ n ih =>
    cases k with
    | zero => cases hy
    | succ k =>
      obtain ⟨found, hf, hx⟩ := Option.bind_eq_some_iff.mp hx
      obtain ⟨found', hf', hy⟩ := Option.bind_eq_some_iff.mp hy
      obtain rfl := Option.some.inj (hf.symm.trans hf')
      cases found with
      | none => exact ih hx hy
      | some i => exact Option.some.inj (hx.symm.trans hy)

theorem strtokR_unique {s : Option ℕ} {d : Option (List UInt8)} {savePtr : Option ℕ} {n k : ℕ}
    {b c : Call} (hb : strtokR m s d savePtr n = some b) (hc : strtokR m s d savePtr k = some c) :
    b = c := by
  cases d with
  | none => exact Option.some.inj (hb.symm.trans hc)
  | some delim =>
    simp only [strtokR] at hb hc
    generalize (if s = none then savePtr else s) = start at hb hc
    cases start with
    | none => exact Option.some.inj (hb.symm.trans hc)
    | some a =>
      obtain ⟨x, hx, hb⟩ := Option.bind_eq_some_iff.mp hb
      obtain ⟨x', hx', hc⟩ := Option.bind_eq_some_iff.mp hc
      obtain rfl := skipDelims_unique hx hx'
      obtain ⟨i, ended⟩ := x
      cases ended with
      | true => exact Option.some.inj (hb.symm.trans hc)
      | false =>
        obtain ⟨j, hj, hb⟩ := Option.bind_eq_some_iff.mp hb
        obtain ⟨j', hj', hc⟩ := Option.bind_eq_some_iff.mp hc
        obtain rfl := skipToken_unique hj hj'
        exact Option.some.inj (hb.symm.trans hc)

theorem Session.unique {p k : ℕ} {savePtr : Option ℕ} {b c : Call}
    (hb : Session delim m p savePtr k b) (hc : Session delim m p savePtr k c) : b = c := by
  induction hb generalizing c with
  | first fuel hb =>
    cases hc with
    | first fuel' hc => exact strtokR_unique hb hc
  | next fuel hs hb ih =>
    cases hc with
    | next fuel' hs' hc =>
      obtain rfl := ih hs'
      exact strtokR_unique hb hc

end

section
variable {delim : List UInt8} {m : Mem} {p e : ℕ} {tokens : List (ℕ × ℕ)}

theorem behind_le {r : Option (ℕ × ℕ)} (hr : ∀ s ∈ r, s.2 ≤ e) : behind e r ≤ e := by
  cases r with
  | none => exact le_rfl
  | some s =>
    have hle := hr s rfl
    simp only [behind]
    split <;> omega

theorem cut_changed {k : ℕ} (h : cut m e tokens k ≠ m k) : ∃ r ∈ tokens, k = r.2 ∧ k < e := by
  by_contra hno
  refine h (WriteLog.apply_outside (fun hk => hno ?_) m)
  rw [List.map_map, List.mem_map] at hk
  obtain ⟨r, hr, rfl⟩ := hk
  obtain ⟨hr, hlt⟩ := List.mem_filter.mp hr
  exact ⟨r, hr, rfl, of_decide_eq_true hlt⟩

theorem cut_end {r : ℕ × ℕ} (hr : r ∈ tokens) (hlt : r.2 < e) : cut m e tokens r.2 = 0 := by
  have hmem : (r.2, (0 : UInt8)) ∈ (tokens.filter fun r => r.2 < e).map fun r => (r.2, 0) :=
    List.mem_map.mpr ⟨r, List.mem_filter.mpr ⟨hr, decide_eq_true hlt⟩, rfl⟩
  obtain ⟨v, front, back, heq, hback⟩ :=
    WriteLog.exists_last (List.mem_map.mpr ⟨_, hmem, rfl⟩)
  have hv : (r.2, v) ∈ (tokens.filter fun r => r.2 < e).map fun r => (r.2, 0) :=
    heq ▸ List.mem_append_right _ List.mem_cons_self
  obtain ⟨s, -, hs⟩ := List.mem_map.mp hv
  obtain rfl := (Prod.mk.inj hs).2
  unfold cut
  rw [heq]
  exact WriteLog.apply_last hback m 0

theorem stringAt_range {m m' : Mem} (i n : ℕ) (hsame : ∀ k, i ≤ k → k < i + n → m' k = m k)
    (hne : ∀ k, i ≤ k → k < i + n → m k ≠ 0) (hend : m' (i + n) = 0) :
    StringAt 0 m' i ((List.range' i n).map m) := by
  induction n generalizing i with
  | zero => exact hend
  | succ n ih =>
    rw [List.range'_succ, List.map_cons]
    refine ⟨hsame i le_rfl (by omega), hne i le_rfl (by omega), ?_⟩
    refine ih (i + 1) (fun k hk hlt => hsame k (by omega) (by omega))
      (fun k hk hlt => hne k (by omega) (by omega)) ?_
    rwa [Nat.add_assoc, Nat.add_comm 1]

theorem tokenAt_run {i j : ℕ} (hr : IsRun (TokenAt delim m p e) i j) : p ≤ i ∧ j ≤ e := by
  have hfirst := hr.inside i le_rfl hr.nonempty
  have hlt := hr.nonempty
  have hlast := (hr.inside (j - 1) (by omega) (by omega)).2.1
  exact ⟨hfirst.1, by omega⟩

theorem tokensCut_cut (hend : m e = 0) (hne : ∀ k, p ≤ k → k < e → m k ≠ 0)
    (hrun : ∀ r ∈ tokens, IsRun (TokenAt delim m p e) r.1 r.2) :
    TokensCut delim m (cut m e tokens) tokens where
  string r hr := by
    have hr' := hrun r hr
    have hlt := hr'.nonempty
    obtain ⟨hpi, hje⟩ := tokenAt_run hr'
    refine stringAt_range r.1 (r.2 - r.1) (fun k hk hk' => ?_)
      (fun k hk hk' => hne k (by omega) (by omega)) ?_
    · by_contra hcut
      obtain ⟨s, hs, rfl, -⟩ := cut_changed hcut
      exact (hrun s hs).right (hr'.inside s.2 hk (by omega))
    · rw [Nat.add_sub_cancel' hlt.le]
      rcases Nat.eq_or_lt_of_le hje with heq | hje
      · by_contra hcut
        obtain ⟨-, -, -, hlt'⟩ := cut_changed fun h => hcut (h.trans (heq ▸ hend))
        omega
      · exact cut_end hr hje
  frame k hk := by
    obtain ⟨r, hr, rfl, hlt⟩ := cut_changed hk
    have hr' := hrun r hr
    have hpi := (tokenAt_run hr').1
    have hij := hr'.nonempty
    refine ⟨r, hr, rfl, ?_, cut_end hr hlt⟩
    by_contra hmem
    exact hr'.right ⟨by omega, hlt, hne _ (by omega) hlt, hmem⟩

end

/-- The first call with a string and the further ones with NULL return its tokens. -/
theorem strtok_r_tokens {m : Mem} {p : ℕ} {l : List UInt8} (hs : StringAt 0 m p l)
    {delim : List UInt8} (hd : 0 ∈ delim) (savePtr : Option ℕ) :
    ∃ runs, Tokenizes delim m p (p + l.length) savePtr runs := by
  generalize he : p + l.length = e
  have hend : m e = 0 := he ▸ hs.terminator
  have hne : ∀ k, p ≤ k → k < e → m k ≠ 0 := fun k hk hlt => hs.ne hk (he ▸ hlt)
  have houtside : ∀ k, e ≤ k → ¬ TokenAt delim m p e k := fun k hk hT =>
    absurd hT.2.1 (Nat.not_lt_of_le hk)
  obtain ⟨runs, hruns⟩ := exists_runsFrom houtside p
  have hmem : ∀ i j, (i, j) ∈ runs ↔ IsRun (TokenAt delim m p e) i j := by
    intro i j
    rw [hruns.mem_iff fun k hk hT => absurd hT.1 (by omega)]
    exact and_iff_left_of_imp fun hr => (tokenAt_run hr).1
  refine ⟨runs, hmem, hruns.pairwise, fun m' hm' k c => ?_, fun k => ?_, fun k => ?_⟩
  · have hsame : TokenAt delim m' p e = TokenAt delim m p e := by
      funext k
      refine propext (and_congr_right fun _ => and_congr_right fun hlt => ?_)
      rw [hm' k hlt.le]
    have hsession := (session_outcome hd ((hm' e le_rfl).trans hend)
      (fun k hk hlt => hm' k hlt.le ▸ hne k hk hlt) (by omega) (hsame ▸ hruns) savePtr k).1
    refine ⟨fun hc => hc.unique hsession, ?_⟩
    rintro rfl
    exact hsession
  · refine behind_le fun r hr => ?_
    exact (tokenAt_run ((hmem _ _).mp (List.mem_of_getElem? hr))).2
  · exact tokensCut_cut hend hne fun r hr => (hmem _ _).mp (List.mem_of_mem_take hr)

/-- `"a,b"` at `","`. -/
theorem strtok_r_tokens_comma :
    ∃ runs, Tokenizes [byte ',', 0] (formatMem [byte 'a', byte ',', byte 'b']) 0 3 none runs :=
  strtok_r_tokens (l := [byte 'a', byte ',', byte 'b']) (by decide) (by decide) none

end Tokenizer
