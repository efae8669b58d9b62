import Mathlib.Data.UInt
import OppoOS.CStrings

/-!
# The shell's input loop

`user/shell/shell.c`: characters are collected in `cmdline` until a carriage return. The test
for a full buffer comes before the test for the carriage return, and `goto prompt` after it
goes on with the rest of the same line as with a new command. A write outside the buffer,
or a comparison that leaves it, is `none`.
-/
namespace Shell

open CStrings

/-- `sizeof(cmdline)`. -/
def cmdlineSize : ℕ := 128

def carriageReturn : UInt8 := 13

abbrev Cmdline := Vector UInt8 cmdlineSize

inductive Output where
  | echo (ch : UInt8)
  | text (s : String)
  | unknownCommand (cmd : List UInt8)
  deriving DecidableEq

/-- The state when the next character is to be read; `i` and `cmdline` as in the loop. After
`exit` nothing is read any more. `dispatched` records the strings compared with the built-ins. -/
structure State where
  i : ℕ
  cmdline : Cmdline
  exited : Bool
  out : List Output
  dispatched : List (List UInt8)

/-- `cmdline[i] = ch`. -/
def writeAt (cmdline : Cmdline) (i : ℕ) (ch : UInt8) : Option Cmdline :=
  if h : i < cmdlineSize then some (cmdline.set i ch h) else none

def literal (s : String) : List UInt8 := s.toList.map fun c => UInt8.ofNat c.toNat

/-- `user/libc/string.c`: the difference of the first two characters that differ, 0 if both
strings end before that. -/
def strcmp : List UInt8 → List UInt8 → Option UInt8
  | a :: as, b :: bs =>
    if a = 0 ∧ b = 0 then some 0
    else
      let diff := a - b
      if diff ≠ 0 then some diff else strcmp as bs
  | _, _ => none

def print (s : State) (o : Output) : State := { s with out := s.out ++ [o] }

/-- `prompt:`. -/
def prompt (s : State) : State := print { s with i := 0 } (.text "> ")

/-- After `break`: the built-ins. -/
def dispatch (s : State) : Option State := do
  let cmd := cString s.cmdline.toList
  let s := { s with dispatched := s.dispatched ++ [cmd] }
  let diff ← strcmp s.cmdline.toList (literal "hello" ++ [0])
  if diff = 0 then
    some (prompt (print s (.text "Hello world from shell!\n")))
  else
    let diff ← strcmp s.cmdline.toList (literal "exit" ++ [0])
    if diff = 0 then some { s with exited := true }
    else some (prompt (print s (.unknownCommand cmd)))

/-- One iteration of the loop, with the character `getc` returns. -/
def step (s : State) (ch : UInt8) : Option State :=
  let s := print s (.echo ch)
  if s.i = cmdlineSize - 1 then some (prompt (print s (.text "Command too long!\n")))
  else if ch = carriageReturn then do
    let s := print s (.text "\n")
    let cmdline ← writeAt s.cmdline s.i 0
    dispatch { s with cmdline := cmdline }
  else do
    let cmdline ← writeAt s.cmdline s.i ch
    some { s with cmdline := cmdline, i := s.i + 1 }

@[simp] theorem print_i (s : State) (o : Output) : (print s o).i = s.i := rfl
@[simp] theorem print_cmdline (s : State) (o : Output) : (print s o).cmdline = s.cmdline := rfl
@[simp] theorem print_exited (s : State) (o : Output) : (print s o).exited = s.exited := rfl
@[simp] theorem print_dispatched (s : State) (o : Output) :
    (print s o).dispatched = s.dispatched := rfl
@[simp] theorem prompt_i (s : State) : (prompt s).i = 0 := rfl
@[simp] theorem prompt_exited (s : State) : (prompt s).exited = s.exited := rfl
@[simp] theorem prompt_dispatched (s : State) : (prompt s).dispatched = s.dispatched := rfl

def start (cmdline : Cmdline) : State := prompt ⟨0, cmdline, false, [], []⟩

inductive Reads (cmdline : Cmdline) : List UInt8 → State → Prop where
  | start : Reads cmdline [] (start cmdline)
  | getc {input s s'} (ch) : Reads cmdline input s → s.exited = false → step s ch = some s' →
      Reads cmdline (input ++ [ch]) s'

/-- The complete lines and the beginning of the next one. -/
def frame (r : List (List UInt8) × List UInt8) (ch : UInt8) : List (List UInt8) × List UInt8 :=
  if ch = carriageReturn then (r.1 ++ [r.2], []) else (r.1, r.2 ++ [ch])

def lines (input : List UInt8) : List (List UInt8) × List UInt8 := input.foldl frame ([], [])

/-- The lines that fit: at most `sizeof(cmdline) - 1` characters, none of them NUL. -/
def Fits (line : List UInt8) : Prop := line.length ≤ cmdlineSize - 1 ∧ 0 ∉ line

instance (line : List UInt8) : Decidable (Fits line) := inferInstanceAs (Decidable (_ ∧ _))

def commands (input : List UInt8) : List (List UInt8) := (lines input).1.filter fun l => Fits l

/-- What the code dispatches for a complete line: nothing if the carriage return finds the
buffer full, else what has been read since the buffer was last full. -/
def dispatchOf (line : List UInt8) : List (List UInt8) :=
  if line.length % cmdlineSize = cmdlineSize - 1 then []
  else [cString (line.drop (line.length / cmdlineSize * cmdlineSize))]

theorem lines_append (input : List UInt8) (ch : UInt8) :
    lines (input ++ [ch]) = frame (lines input) ch := by
  rw [lines, List.foldl_append]
  rfl

theorem sub_eq_zero_iff {a b : UInt8} : a - b = 0 ↔ a = b := by
  constructor
  · intro h
    have hs : a - b + b = 0 + b := by rw [h]
    rwa [UInt8.sub_add_cancel, UInt8.zero_add] at hs
  · rintro rfl
    exact UInt8.sub_self a

theorem strcmp_spec (s t : List UInt8) (hs : 0 ∉ s) (ht : 0 ∉ t) (r : List UInt8) :
    ∃ diff, strcmp (s ++ 0 :: r) (t ++ [0]) = some diff ∧ (diff = 0 ↔ s = t) := by
  induction s generalizing t with
  | nil =>
    cases t with
    | nil => exact ⟨0, rfl, by simp⟩
    | cons b t =>
      have hb : b ≠ 0 := fun h => ht (h ▸ List.mem_cons_self)
      have hd : (0 : UInt8) - b ≠ 0 := fun h => hb (sub_eq_zero_iff.mp h).symm
      refine ⟨0 - b, ?_, by simp [hb]⟩
      simp [strcmp, hb]
  | cons a s ih =>
    have ha : a ≠ 0 := fun h => hs (h ▸ List.mem_cons_self)
    cases t with
    | nil =>
      have hd : a - 0 ≠ 0 := fun h => ha (sub_eq_zero_iff.mp h)
      refine ⟨a - 0, ?_, by simp [ha]⟩
      simp [strcmp, ha]
    | cons b t =>
      by_cases hab : a = b
      · subst hab
        obtain ⟨diff, hd, hiff⟩ := ih t (fun h => hs (List.mem_cons_of_mem _ h))
          (fun h => ht (List.mem_cons_of_mem _ h))
        refine ⟨diff, ?_, by simp [hiff]⟩
        simp [strcmp, ha, hd]
      · have hd : a - b ≠ 0 := fun h => hab (sub_eq_zero_iff.mp h)
        refine ⟨a - b, ?_, by simp [hd, hab]⟩
        simp [strcmp, ha, hd]

theorem step_eq (s : State) (ch : UInt8) :
    step s ch =
      if s.i = cmdlineSize - 1 then
        some (prompt (print (print s (.echo ch)) (.text "Command too long!\n")))
      else if ch = carriageReturn then
        (writeAt s.cmdline s.i 0).bind fun cmdline =>
          dispatch { print (print s (.echo ch)) (.text "\n") with cmdline := cmdline }
      else
        (writeAt s.cmdline s.i ch).bind fun cmdline =>
          some { print s (.echo ch) with cmdline := cmdline, i := s.i + 1 } := rfl

theorem writeAt_some {cmdline : Cmdline} {i : ℕ} (h : i < cmdlineSize) (ch : UInt8) :
    ∃ cmdline', writeAt cmdline i ch = some cmdline' ∧
      cmdline'.toList = cmdline.toList.take i ++ ch :: cmdline.toList.drop (i + 1) := by
  refine ⟨cmdline.set i ch h, dif_pos h, ?_⟩
  rw [Vector.toList_set, List.set_eq_take_append_cons_drop, if_pos (by simpa using h)]

/-- On a terminated buffer the comparisons stay inside it; only `exit` ends the loop. -/
theorem dispatch_spec {s : State} (hs : s.exited = false) (h : 0 ∈ s.cmdline.toList) :
    ∃ s', dispatch s = some s' ∧ s'.dispatched = s.dispatched ++ [cString s.cmdline.toList] ∧
      (s'.exited = true ↔ cString s.cmdline.toList = literal "exit") ∧
      (s'.exited = false → s'.i = 0) := by
  obtain ⟨r, hr⟩ := cString_terminated h
  have hz := zero_notMem_cString s.cmdline.toList
  obtain ⟨d₁, hd₁, hhello⟩ := strcmp_spec _ (literal "hello") hz (by decide) r
  obtain ⟨d₂, hd₂, hexit⟩ := strcmp_spec _ (literal "exit") hz (by decide) r
  have hne : literal "hello" ≠ literal "exit" := by decide
  rw [← hr] at hd₁ hd₂
  unfold dispatch
  simp only [hd₁, hd₂, Option.bind_eq_bind, Option.bind_some]
  by_cases h₁ : d₁ = 0
  · rw [if_pos h₁]
    refine ⟨_, rfl, rfl, ?_, fun _ => rfl⟩
    rw [hhello.mp h₁]
    simp [hs, hne]
  · rw [if_neg h₁]
    by_cases h₂ : d₂ = 0
    · rw [if_pos h₂]
      exact ⟨_, rfl, rfl, by simp [hexit.mp h₂], by simp⟩
    · rw [if_neg h₂]
      refine ⟨_, rfl, rfl, ?_, fun _ => rfl⟩
      simp [hs, ← hexit, h₂]

/-- The loop counter is the number of characters since the buffer was last full or the line
began, and the buffer holds them. -/
structure Invariant (input : List UInt8) (s : State) : Prop where
  dispatched : s.dispatched = (lines input).1.flatMap dispatchOf
  index : s.exited = false → s.i = (lines input).2.length % cmdlineSize
  held : s.exited = false → s.cmdline.toList.take s.i =
    (lines input).2.drop ((lines input).2.length / cmdlineSize * cmdlineSize)

theorem start_invariant (cmdline : Cmdline) : Invariant [] (start cmdline) where
  dispatched := rfl
  index _ := rfl
  held _ := rfl

theorem lines_return (input : List UInt8) :
    lines (input ++ [carriageReturn]) = ((lines input).1 ++ [(lines input).2], []) := by
  rw [lines_append, frame, if_pos rfl]

theorem lines_char (input : List UInt8) {ch : UInt8} (h : ch ≠ carriageReturn) :
    lines (input ++ [ch]) = ((lines input).1, (lines input).2 ++ [ch]) := by
  rw [lines_append, frame, if_neg h]

section
variable {input : List UInt8} {s : State}

theorem step_full (hi : Invariant input s) (hs : s.exited = false)
    (hfull : s.i = cmdlineSize - 1) (ch : UInt8) :
    ∃ s', step s ch = some s' ∧ Invariant (input ++ [ch]) s' := by
  have hlen := (hi.index hs).symm.trans hfull
  refine ⟨_, if_pos hfull, ?_⟩
  by_cases hcr : ch = carriageReturn
  · subst hcr
    constructor
    · rw [lines_return, List.flatMap_append, List.flatMap_singleton, dispatchOf, if_pos hlen,
        List.append_nil]
      exact hi.dispatched
    · intro _
      simp [lines_return]
    · intro _
      simp [lines_return]
  · constructor
    · rw [lines_char input hcr]
      exact hi.dispatched
    · intro _
      rw [lines_char input hcr, List.length_append, List.length_singleton, prompt_i]
      simp only [cmdlineSize] at hlen ⊢
      omega
    · intro _
      rw [lines_char input hcr, prompt_i, List.take_zero]
      symm
      apply List.drop_eq_nil_of_le
      rw [List.length_append, List.length_singleton]
      simp only [cmdlineSize] at hlen ⊢
      omega

theorem step_return (hi : Invariant input s) (hs : s.exited = false)
    (hroom : s.i < cmdlineSize - 1) :
    ∃ s', step s carriageReturn = some s' ∧ Invariant (input ++ [carriageReturn]) s' := by
  have hsize : s.i < cmdlineSize := by omega
  have hfull : ¬ s.i = cmdlineSize - 1 := by omega
  obtain ⟨cmdline, hw, hc⟩ := @writeAt_some s.cmdline s.i hsize 0
  let s₁ : State := { print (print s (.echo carriageReturn)) (.text "\n") with cmdline := cmdline }
  have hterm : 0 ∈ s₁.cmdline.toList := by
    change 0 ∈ cmdline.toList
    rw [hc]
    simp
  obtain ⟨s', hd, hdisp, -, hidx⟩ := dispatch_spec (s := s₁) hs hterm
  refine ⟨s', ?_, ?_⟩
  · rw [step_eq, if_neg hfull, if_pos rfl]
    exact Option.bind_eq_some_iff.mpr ⟨cmdline, hw, hd⟩
  · have hline : cString cmdline.toList =
        cString ((lines input).2.drop ((lines input).2.length / cmdlineSize * cmdlineSize)) := by
      rw [hc, cString_append, hi.held hs]
    constructor
    · have hlen : (lines input).2.length % cmdlineSize ≠ cmdlineSize - 1 := by
        rw [← hi.index hs]
        omega
      rw [hdisp, lines_return, List.flatMap_append, List.flatMap_singleton, dispatchOf,
        if_neg hlen, ← hline, ← hi.dispatched]
      rfl
    · intro hx
      simp [lines_return, hidx hx]
    · intro hx
      simp [lines_return, hidx hx]

theorem step_char (hi : Invariant input s) (hs : s.exited = false)
    (hroom : s.i < cmdlineSize - 1) {ch : UInt8} (hcr : ch ≠ carriageReturn) :
    ∃ s', step s ch = some s' ∧ Invariant (input ++ [ch]) s' := by
  have hsize : s.i < cmdlineSize := by omega
  have hfull : ¬ s.i = cmdlineSize - 1 := by omega
  obtain ⟨cmdline, hw, hc⟩ := @writeAt_some s.cmdline s.i hsize ch
  have hidx := hi.index hs
  refine ⟨{ print s (.echo ch) with cmdline := cmdline, i := s.i + 1 }, ?_, ?_, ?_, ?_⟩
  · rw [step_eq, if_neg hfull, if_neg hcr]
    exact Option.bind_eq_some_iff.mpr ⟨cmdline, hw, rfl⟩
  · rw [lines_char input hcr]
    exact hi.dispatched
  · intro _
    rw [lines_char input hcr, List.length_append, List.length_singleton]
    simp only [cmdlineSize] at hidx hroom ⊢
    omega
  · intro _
    rw [lines_char input hcr, List.length_append, List.length_singleton]
    have hk : ((lines input).2.length + 1) / cmdlineSize * cmdlineSize =
        (lines input).2.length / cmdlineSize * cmdlineSize := by
      simp only [cmdlineSize] at hidx hroom ⊢
      omega
    have hle := Nat.div_mul_le_self (lines input).2.length cmdlineSize
    have hlen : (s.cmdline.toList.take s.i).length = s.i := by
      rw [List.length_take, Vector.length_toList]
      omega
    rw [hk, List.drop_append_of_le_length hle, ← hi.held hs]
    dsimp only
    rw [hc, List.take_append, hlen, Nat.add_sub_cancel_left,
      List.take_of_length_le (by omega)]
    rfl

theorem step_invariant (hi : Invariant input s) (hs : s.exited = false) (ch : UInt8) :
    ∃ s', step s ch = some s' ∧ Invariant (input ++ [ch]) s' := by
  have hlt : s.i < cmdlineSize := by
    rw [hi.index hs]
    exact Nat.mod_lt _ (by decide)
  by_cases hfull : s.i = cmdlineSize - 1
  · exact step_full hi hs hfull ch
  · by_cases hcr : ch = carriageReturn
    · rw [hcr]
      exact step_return hi hs (by omega)
    · exact step_char hi hs (by omega) hcr

end

theorem reads_invariant {cmdline : Cmdline} {input : List UInt8} {s : State}
    (hr : Reads cmdline input s) : Invariant input s := by
  induction hr with
  | start => exact start_invariant cmdline
  | getc ch _ hs hstep ih =>
    obtain ⟨s', hstep', hi⟩ := step_invariant ih hs ch
    rw [hstep] at hstep'
    rw [Option.some.inj hstep']
    exact hi

/-- A line short enough to be dispatched at its carriage return, without NUL; or one whose
carriage return finds the buffer full, and which does not fit. -/
def Framed (line : List UInt8) : Prop :=
  (line.length < cmdlineSize - 1 ∧ 0 ∉ line) ∨
    (line.length % cmdlineSize = cmdlineSize - 1 ∧ ¬ Fits line)

theorem commands_eq (input : List UInt8) :
    commands input = (lines input).1.flatMap fun l => if Fits l then [l] else [] := by
  rw [commands]
  induction (lines input).1 with
  | nil => rfl
  | cons l ls ih =>
    rw [List.flatMap_cons, ← ih]
    by_cases hl : Fits l <;> simp [hl]

theorem dispatchOf_short {line : List UInt8} (h : line.length < cmdlineSize - 1) :
    dispatchOf line = [cString line] := by
  have hsize : line.length < cmdlineSize := by omega
  rw [dispatchOf, Nat.mod_eq_of_lt hsize, if_neg (by omega), Nat.div_eq_of_lt hsize, Nat.zero_mul,
    List.drop_zero]

theorem dispatchOf_framed {line : List UInt8} (h : Framed line) :
    dispatchOf line = if Fits line then [line] else [] := by
  rcases h with ⟨hlt, hz⟩ | ⟨hfull, hn⟩
  · rw [dispatchOf_short hlt, cString_of_notMem hz, if_pos ⟨hlt.le, hz⟩]
  · rw [dispatchOf, if_pos hfull, if_neg hn]

theorem length_of_dispatchOf {line cmd : List UInt8} (h : cmd ∈ dispatchOf line) :
    cmd.length < cmdlineSize - 1 := by
  unfold dispatchOf at h
  split at h
  · cases h
  · next hn =>
    rw [List.mem_singleton.mp h]
    have hle := (List.takeWhile_sublist (· ≠ (0 : UInt8))
      (l := line.drop (line.length / cmdlineSize * cmdlineSize))).length_le
    have hlt := Nat.mod_lt line.length (show 0 < cmdlineSize by decide)
    have hadd := Nat.div_add_mod' line.length cmdlineSize
    rw [List.length_drop] at hle
    unfold cString
    omega

theorem framed_of_eq {line : List UInt8}
    (h : dispatchOf line = if Fits line then [line] else []) : Framed line := by
  by_cases hfull : line.length % cmdlineSize = cmdlineSize - 1
  · refine Or.inr ⟨hfull, fun hf => ?_⟩
    rw [dispatchOf, if_pos hfull, if_pos hf] at h
    cases h
  · by_cases hf : Fits line
    · refine Or.inl ⟨lt_of_le_of_ne hf.1 fun he => hfull ?_, hf.2⟩
      rw [he]
      decide
    · rw [dispatchOf, if_neg hfull, if_neg hf] at h
      cases h

theorem length_flatMap_le {α β : Type} {f g : α → List β} (l : List α)
    (hle : ∀ a ∈ l, (f a).length ≤ (g a).length) :
    (l.flatMap f).length ≤ (l.flatMap g).length := by
  induction l with
  | nil => exact Nat.le_refl 0
  | cons a l ih =>
    rw [List.flatMap_cons, List.flatMap_cons, List.length_append, List.length_append]
    exact Nat.add_le_add (hle a List.mem_cons_self) (ih fun b hb => hle b (List.mem_cons_of_mem _ hb))

theorem length_eq_of_flatMap {α β : Type} {f g : α → List β} (l : List α)
    (hle : ∀ a ∈ l, (f a).length ≤ (g a).length)
    (h : (l.flatMap f).length = (l.flatMap g).length) :
    ∀ a ∈ l, (f a).length = (g a).length := by
  induction l with
  | nil =>
    intro a ha
    cases ha
  | cons b l ih =>
    have hb := hle b List.mem_cons_self
    have hle' : ∀ a ∈ l, (f a).length ≤ (g a).length := fun a ha =>
      hle a (List.mem_cons_of_mem _ ha)
    have hrest := length_flatMap_le l hle'
    rw [List.flatMap_cons, List.flatMap_cons, List.length_append, List.length_append] at h
    intro a ha
    rcases List.mem_cons.mp ha with rfl | ha
    · omega
    · exact ih hle' (by omega) a ha

/-- A line of full length is in the way of equality: no dispatched string is that long. So
every line that fits is short, and counting shows that nothing else is dispatched. -/
theorem framed_iff (ls : List (List UInt8)) :
    (ls.flatMap dispatchOf = ls.flatMap fun l => if Fits l then [l] else []) ↔
      ∀ line ∈ ls, Framed line := by
  constructor
  · intro h
    have hshort : ∀ line ∈ ls, Fits line → line.length < cmdlineSize - 1 := by
      intro line hm hf
      have hin : line ∈ ls.flatMap dispatchOf := by
        rw [h]
        exact List.mem_flatMap.mpr ⟨line, hm, by simp [hf]⟩
      obtain ⟨line', -, hc⟩ := List.mem_flatMap.mp hin
      exact length_of_dispatchOf hc
    have hle : ∀ line ∈ ls,
        (if Fits line then [line] else []).length ≤ (dispatchOf line).length := by
      intro line hm
      by_cases hf : Fits line
      · rw [dispatchOf_short (hshort line hm hf), if_pos hf]
        rfl
      · simp [hf]
    have hlen := length_eq_of_flatMap ls hle (congrArg List.length h.symm)
    intro line hm
    apply framed_of_eq
    by_cases hf : Fits line
    · rw [dispatchOf_short (hshort line hm hf), cString_of_notMem hf.2, if_pos hf]
    · have hz := hlen line hm
      rw [if_neg hf] at hz ⊢
      exact List.eq_nil_of_length_eq_zero hz.symm
  · intro h
    rw [List.flatMap_def, List.flatMap_def]
    congr 1
    exact List.map_congr_left fun line hm => dispatchOf_framed (h line hm)

/-- At every point of every input: the next character is handled inside the buffer, and the
commands dispatched are the complete lines that fit exactly when all complete lines are
framed. -/
theorem shell_framing_iff (cmdline : Cmdline) (input : List UInt8) (s : State)
    (hr : Reads cmdline input s) :
    (s.exited = false → ∀ ch, ∃ s', step s ch = some s') ∧
      (s.dispatched = commands input ↔ ∀ line ∈ (lines input).1, Framed line) := by
  have hi := reads_invariant hr
  constructor
  · intro hs ch
    obtain ⟨s', hstep, -⟩ := step_invariant hi hs ch
    exact ⟨s', hstep⟩
  · rw [hi.dispatched, commands_eq]
    exact framed_iff _

theorem step_exited {s s' : State} {ch : UInt8} (hs : s.exited = false)
    (hcr : ch ≠ carriageReturn) (h : step s ch = some s') : s'.exited = false := by
  rw [step_eq, if_neg hcr] at h
  split at h
  · rw [← Option.some.inj h]
    simpa using hs
  · obtain ⟨c, -, hc⟩ := Option.bind_eq_some_iff.mp h
    rw [← Option.some.inj hc]
    exact hs

theorem reads_chars (cmdline : Cmdline) (line : List UInt8) (hl : carriageReturn ∉ line) :
    ∃ s, Reads cmdline line s ∧ s.exited = false := by
  induction line using List.reverseRecOn with
  | nil => exact ⟨_, .start, rfl⟩
  | append_singleton line ch ih =>
    obtain ⟨s, hr, hs⟩ := ih fun h => hl (List.mem_append_left _ h)
    obtain ⟨s', hstep, -⟩ := step_invariant (reads_invariant hr) hs ch
    have hcr : ch ≠ carriageReturn := fun h => hl (by simp [h])
    exact ⟨s', .getc ch hr hs hstep, step_exited hs hcr hstep⟩

theorem reads_line (cmdline : Cmdline) (line : List UInt8) (hl : carriageReturn ∉ line) :
    ∃ s, Reads cmdline (line ++ [carriageReturn]) s := by
  obtain ⟨s, hr, hs⟩ := reads_chars cmdline line hl
  obtain ⟨s', hstep, -⟩ := step_invariant (reads_invariant hr) hs carriageReturn
  exact ⟨s', .getc _ hr hs hstep⟩

theorem lines_line (line : List UInt8) (hl : carriageReturn ∉ line) :
    lines (line ++ [carriageReturn]) = ([line], []) := by
  have hchars : ∀ line : List UInt8, carriageReturn ∉ line → lines line = ([], line) := by
    intro line hl
    induction line using List.reverseRecOn with
    | nil => rfl
    | append_singleton line ch ih =>
      have hcr : ch ≠ carriageReturn := fun h => hl (by simp [h])
      rw [lines_char line hcr, ih fun h => hl (List.mem_append_left _ h)]
  rw [lines_return, hchars line hl]
  rfl

def zeroCmdline : Cmdline := Vector.replicate cmdlineSize 0

theorem shell_framing_hello :
    ∃ s, Reads zeroCmdline (literal "hello" ++ [carriageReturn]) s ∧
      (s.dispatched = commands (literal "hello" ++ [carriageReturn]) ↔
        ∀ line ∈ (lines (literal "hello" ++ [carriageReturn])).1, Framed line) := by
  obtain ⟨s, hr⟩ := reads_line zeroCmdline (literal "hello") (by decide)
  exact ⟨s, hr, (shell_framing_iff zeroCmdline _ s hr).2⟩

/-- 128 letters fill the buffer and are dropped; the rest of the line is run as `exit`. -/
def overlongLine : List UInt8 := List.replicate 128 97 ++ literal "exit"

theorem overlongLine_length : overlongLine.length = 132 := by
  rw [overlongLine, List.length_append, List.length_replicate]
  rfl

theorem overlong_line_dispatched :
    ∃ s, Reads zeroCmdline (overlongLine ++ [carriageReturn]) s ∧
      s.dispatched = [literal "exit"] ∧ commands (overlongLine ++ [carriageReturn]) = [] := by
  have hl : carriageReturn ∉ overlongLine := by decide
  obtain ⟨s, hr⟩ := reads_line zeroCmdline overlongLine hl
  refine ⟨s, hr, ?_, ?_⟩
  · have hdrop : overlongLine.drop 128 = literal "exit" :=
      List.drop_left' (List.length_replicate ..)
    rw [(reads_invariant hr).dispatched, lines_line _ hl, List.flatMap_singleton, dispatchOf,
      overlongLine_length, if_neg (by decide), show 132 / cmdlineSize * cmdlineSize = 128 from rfl,
      hdrop, cString_of_notMem (by decide)]
  · have hlong : ¬ Fits overlongLine := fun hf =>
      absurd hf.1 (by rw [overlongLine_length]; decide)
    rw [commands, lines_line _ hl]
    simp [hlong]

end Shell
