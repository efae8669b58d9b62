import OppoOS.CStrings
import OppoOS.Conversion
import OppoOS.FormatScan

/-!
# Printing with a format

`vprintf`, the same text in `klib/stdio.c` and `user/libc/stdio.c`; only the `putc` it calls
differs. A string is the list of the bytes from its pointer to the end of its object. What C
leaves undefined (an argument that does not exist or has another kind, a string without a
terminator) is `none`.
-/
namespace Printf

open ByteMemory CStrings Numerals Conversion FormatScan

/-- The two copies: `putc` is `sbi_putc` in the kernel, the system call `SYS_PUTC` in user
space. -/
inductive Library where
  | klib
  | libc
  deriving DecidableEq

/-- A character given to `putc`. `inserted` marks the carriage return before a newline of the
format. -/
structure Put where
  library : Library
  ch : UInt8
  inserted : Bool
  deriving DecidableEq

/-- A variadic argument: a number in its 64-bit slot, or a pointer to a string. -/
inductive Arg where
  | word (w : BitVec 64)
  | str (s : List UInt8)
  deriving DecidableEq

/-- `va_arg(args, uint64_t)`. -/
def vaUint64 : List Arg → Option (BitVec 64 × List Arg)
  | .word w :: args => some (w, args)
  | .str _ :: _ | [] => none

/-- `va_arg(args, int)` and `va_arg(args, unsigned int)`: the low half of the slot. -/
def vaInt (args : List Arg) : Option (BitVec 32 × List Arg) :=
  (vaUint64 args).map fun r => (r.1.setWidth 32, r.2)

/-- `va_arg(args, const char *)`. -/
def vaString : List Arg → Option (List UInt8 × List Arg)
  | .str s :: args => some (s, args)
  | .word _ :: _ | [] => none

/-- `(char) value`. -/
def toChar (value : BitVec 32) : UInt8 := UInt8.ofBitVec (value.setWidth 8)

def percent : UInt8 := byte '%'

def newline : UInt8 := byte '\n'

inductive Directive where
  | d
  | x
  | u
  | s
  | c
  | other
  deriving DecidableEq

def directiveOf (ch : UInt8) : Directive :=
  if ch = byte 'd' then .d
  else if ch = byte 'x' then .x
  else if ch = byte 'u' then .u
  else if ch = byte 's' then .s
  else if ch = byte 'c' then .c
  else .other

structure Out where
  args : List Arg
  out : List Put
  deriving DecidableEq

def putc (lib : Library) (ch : UInt8) (o : Out) : Out :=
  { o with out := o.out ++ [⟨lib, ch, false⟩] }

def puts (lib : Library) : List UInt8 → Out → Option Out
  | [], _ => none
  | ch :: s, o => if ch ≠ 0 then puts lib s (putc lib ch o) else some o

def printDirective (lib : Library) (ch : UInt8) (o : Out) : Option Out :=
  match directiveOf ch with
  | .d => do
    let (value, args) ← vaInt o.args
    let o := { o with args := args }
    let (value, o) := if value.slt 0 then (-value, putc lib (byte '-') o) else (value, o)
    let buffer ← utoa (value.signExtend 64) 10
    puts lib buffer o
  | .x => do
    let (value, args) ← vaUint64 o.args
    let o := { o with args := args }
    let buffer ← utoa value 16
    puts lib buffer o
  | .u => do
    let (value, args) ← vaInt o.args
    let o := { o with args := args }
    let buffer ← utoa (value.signExtend 64) 10
    puts lib buffer o
  | .s => do
    let (str, args) ← vaString o.args
    let o := { o with args := args }
    puts lib str o
  | .c => do
    let (value, args) ← vaInt o.args
    let o := { o with args := args }
    some (putc lib (toChar value) o)
  | .other => some (putc lib ch (putc lib percent o))

def printLiteral (lib : Library) (ch : UInt8) (o : Out) : Out :=
  let o := if ch = newline then { o with out := o.out ++ [⟨lib, byte '\r', true⟩] } else o
  putc lib ch o

def printActions (lib : Library) : Actions UInt8 Out := ⟨printDirective lib, printLiteral lib⟩

def vprintf (lib : Library) (format : Mem) (args : List Arg) (fuel : ℕ) : Option (List Put) :=
  (run percent 0 (printActions lib) format fuel ⟨0, ⟨args, []⟩⟩).map fun s => s.data.out

def formatMem (s : List UInt8) : Mem := fun k => s.getD k 0

/-- A character of the format, or a directive with the argument it takes. -/
inductive Segment where
  | plain (ch : UInt8)
  | int (v : BitVec 32)
  | unsigned (v : BitVec 32)
  | hex (w : BitVec 64)
  | str (s : List UInt8)
  | char (ch : UInt8)
  | other (ch : UInt8)
  deriving DecidableEq

def directiveSegment (ch : UInt8) (args : List Arg) : Option (Segment × List Arg) :=
  match directiveOf ch with
  | .d => (vaInt args).map fun r => (.int r.1, r.2)
  | .x => (vaUint64 args).map fun r => (.hex r.1, r.2)
  | .u => (vaInt args).map fun r => (.unsigned r.1, r.2)
  | .s => (vaString args).bind fun r => if 0 ∈ r.1 then some (.str (cString r.1), r.2) else none
  | .c => (vaInt args).map fun r => (.char (toChar r.1), r.2)
  | .other => some (.other ch, args)

/-- The arguments match the format: every directive finds one of its kind. -/
def segments : List (Item UInt8) → List Arg → Option (List Segment)
  | [], _ => some []
  | .plain ch :: l, args => (segments l args).map fun segs => .plain ch :: segs
  | .directive ch :: l, args =>
    (directiveSegment ch args).bind fun r => (segments l r.2).map fun segs => r.1 :: segs

def decimalText (value : BitVec 64) : List UInt8 := chars (numeral 10 value.toNat)

def hexText (value : BitVec 64) : List UInt8 := chars (numeral 16 value.toNat)

def intText (v : BitVec 32) : List UInt8 :=
  if v.slt 0 then byte '-' :: decimalText ((-v).signExtend 64) else decimalText (v.signExtend 64)

def text : Segment → List UInt8
  | .plain ch => [ch]
  | .int v => intText v
  | .unsigned v => decimalText (v.signExtend 64)
  | .hex w => hexText w
  | .str s => s
  | .char ch => [ch]
  | .other ch => [percent, ch]

def putAll (lib : Library) (s : List UInt8) : List Put := s.map fun ch => ⟨lib, ch, false⟩

def printed (lib : Library) : Segment → List Put
  | .plain ch => (if ch = newline then [⟨lib, byte '\r', true⟩] else []) ++ putAll lib [ch]
  | seg => putAll lib (text seg)

/-- The characters put, the inserted carriage returns removed. -/
def withoutReturns (out : List Put) : List UInt8 :=
  (out.filter fun p => !p.inserted).map Put.ch

theorem puts_eq (lib : Library) {s : List UInt8} (h : 0 ∈ s) (o : Out) :
    puts lib s o = some { o with out := o.out ++ putAll lib (cString s) } := by
  induction s generalizing o with
  | nil => cases h
  | cons ch s ih =>
    by_cases hc : ch = 0
    · subst hc
      simp [puts, putAll]
    · have hs : 0 ∈ s := (List.mem_cons.mp h).resolve_left (Ne.symm hc)
      rw [puts, if_pos hc, ih hs, cString_cons hc]
      simp [putAll, putc]

theorem digitChar_ne_zero : ∀ d, d < 16 → digitChar d ≠ 0 := by decide

theorem cString_numeral {b : ℕ} (hb : 1 < b) (h16 : b ≤ 16) (n : ℕ) :
    cString (chars (numeral b n) ++ [0]) = chars (numeral b n) := by
  have hne : ∀ ch ∈ chars (numeral b n), ch ≠ 0 := by
    intro ch hch
    obtain ⟨d, hd, rfl⟩ := List.mem_map.mp hch
    exact digitChar_ne_zero d (Nat.lt_of_lt_of_le ((isNumeral_numeral hb n).digits d hd) h16)
  rw [cString_append, cString_of_notMem fun h0 => hne 0 h0 rfl]

theorem utoa_decimal (value : BitVec 64) : utoa value 10 = some (decimalText value ++ [0]) :=
  utoa_some value (by decide) (by decide)

theorem utoa_hex (value : BitVec 64) : utoa value 16 = some (hexText value ++ [0]) :=
  utoa_some value (by decide) (by decide)

theorem puts_decimal (lib : Library) (value : BitVec 64) (o : Out) :
    puts lib (decimalText value ++ [0]) o =
      some { o with out := o.out ++ putAll lib (decimalText value) } := by
  rw [puts_eq lib (by simp), decimalText, cString_numeral (by decide) (by decide)]

theorem puts_hex (lib : Library) (value : BitVec 64) (o : Out) :
    puts lib (hexText value ++ [0]) o =
      some { o with out := o.out ++ putAll lib (hexText value) } := by
  rw [puts_eq lib (by simp), hexText, cString_numeral (by decide) (by decide)]

section
variable {lib : Library} {args rest : List Arg} {out : List Put}

theorem printDirective_segment {ch : UInt8} {seg : Segment}
    (h : directiveSegment ch args = some (seg, rest)) :
    printDirective lib ch ⟨args, out⟩ = some ⟨rest, out ++ printed lib seg⟩ := by
  unfold directiveSegment at h
  unfold printDirective
  cases hd : directiveOf ch with
  | d =>
    simp only [hd, Option.map_eq_some_iff, Prod.mk.injEq] at h
    obtain ⟨⟨v, args'⟩, hv, rfl, rfl⟩ := h
    simp only [hv, Option.bind_eq_bind, Option.bind_some]
    by_cases hneg : v.slt 0 = true
    · simp only [if_pos hneg, utoa_decimal, Option.bind_some, puts_decimal, printed, text, intText]
      simp [putc, putAll]
    · simp only [if_neg hneg, utoa_decimal, Option.bind_some, puts_decimal, printed, text, intText]
  | x =>
    simp only [hd, Option.map_eq_some_iff, Prod.mk.injEq] at h
    obtain ⟨⟨v, args'⟩, hv, rfl, rfl⟩ := h
    simp only [hv, Option.bind_eq_bind, Option.bind_some, utoa_hex, puts_hex, printed, text]
  | u =>
    simp only [hd, Option.map_eq_some_iff, Prod.mk.injEq] at h
    obtain ⟨⟨v, args'⟩, hv, rfl, rfl⟩ := h
    simp only [hv, Option.bind_eq_bind, Option.bind_some, utoa_decimal, puts_decimal, printed, text]
  | s =>
    simp only [hd] at h
    obtain ⟨⟨str, args'⟩, hv, hr⟩ := Option.bind_eq_some_iff.mp h
    simp only [Option.ite_none_right_eq_some, Option.some.injEq, Prod.mk.injEq] at hr
    obtain ⟨h0, rfl, rfl⟩ := hr
    simp only [hv, Option.bind_eq_bind, Option.bind_some, puts_eq lib h0, printed, text]
  | c =>
    simp only [hd, Option.map_eq_some_iff, Prod.mk.injEq] at h
    obtain ⟨⟨v, args'⟩, hv, rfl, rfl⟩ := h
    simp [hv, printed, text, putc, putAll]
  | other =>
    simp only [hd, Option.some.injEq, Prod.mk.injEq] at h
    obtain ⟨rfl, rfl⟩ := h
    simp [printed, text, putc, putAll]

theorem printLiteral_segment (ch : UInt8) :
    printLiteral lib ch ⟨args, out⟩ = ⟨args, out ++ printed lib (.plain ch)⟩ := by
  by_cases hc : ch = newline
  · simp [printLiteral, printed, putc, putAll, hc]
  · simp [printLiteral, printed, putc, putAll, hc]

end

/-- What a loop does with a format whose arguments match, from what it does with each segment.
`view` puts the remaining arguments together with the rest of the state. -/
theorem perform_segments {σ τ : Type*} {A : Actions UInt8 σ} (view : List Arg → τ → σ)
    (effect : Segment → τ → τ)
    (hdirective : ∀ ch args seg rest t, directiveSegment ch args = some (seg, rest) →
      A.directive ch (view args t) = some (view rest (effect seg t)))
    (hliteral : ∀ ch args t, A.literal ch (view args t) = view args (effect (.plain ch) t))
    {l : List (Item UInt8)} {args : List Arg} {segs : List Segment}
    (h : segments l args = some segs) (t : τ) :
    ∃ rest, perform A l (view args t) =
      some (view rest (segs.foldl (fun t seg => effect seg t) t)) := by
  induction l generalizing args segs t with
  | nil =>
    obtain rfl := Option.some.inj h
    exact ⟨args, rfl⟩
  | cons item l ih =>
    cases item with
    | plain ch =>
      obtain ⟨segs, hs, rfl⟩ := Option.map_eq_some_iff.mp h
      obtain ⟨rest, hr⟩ := ih hs (effect (.plain ch) t)
      exact ⟨rest, by rw [perform, hliteral, hr, List.foldl_cons]⟩
    | directive ch =>
      obtain ⟨⟨seg, args'⟩, hd, hm⟩ := Option.bind_eq_some_iff.mp h
      obtain ⟨segs, hs, rfl⟩ := Option.map_eq_some_iff.mp hm
      obtain ⟨rest, hr⟩ := ih hs (effect seg t)
      refine ⟨rest, ?_⟩
      rw [perform, hdirective ch args seg args' t hd, Option.bind_some, hr, List.foldl_cons]

theorem perform_print (lib : Library) {l : List (Item UInt8)} {args : List Arg}
    {segs : List Segment} (h : segments l args = some segs) :
    ∃ rest, perform (printActions lib) l ⟨args, []⟩ =
      some ⟨rest, segs.flatMap (printed lib)⟩ := by
  obtain ⟨rest, hr⟩ := perform_segments (A := printActions lib) Out.mk
    (fun seg out => out ++ printed lib seg) (fun _ _ _ _ _ hd => printDirective_segment hd)
    (fun ch _ _ => printLiteral_segment ch) h []
  rw [List.foldl_append_eq_append, List.nil_append, ← List.flatMap_def] at hr
  exact ⟨rest, hr⟩

/-- `vprintf` puts the segments of its format in order. -/
theorem vprintf_prints (lib : Library) {format : Mem} {l : List UInt8} {args : List Arg}
    {segs : List Segment} (hf : StringAt 0 format 0 l) (hl : ¬ Lone percent l)
    (hs : segments (items percent 0 l) args = some segs) {fuel : ℕ} (hfuel : l.length < fuel) :
    vprintf lib format args fuel = some (segs.flatMap (printed lib)) := by
  obtain ⟨rest, hr⟩ := perform_print lib hs
  rw [vprintf, run_string hf hl _ hfuel, hr]
  rfl

theorem vprintf_unique {lib : Library} {format : Mem} {args : List Arg} {out out' : List Put}
    {fuel fuel' : ℕ} (h : vprintf lib format args fuel = some out)
    (h' : vprintf lib format args fuel' = some out') : out = out' := by
  obtain ⟨s, hs, rfl⟩ := Option.map_eq_some_iff.mp h
  obtain ⟨s', hs', rfl⟩ := Option.map_eq_some_iff.mp h'
  rw [run_unique hs hs']

theorem withoutReturns_putAll (lib : Library) (s : List UInt8) :
    withoutReturns (putAll lib s) = s := by
  induction s with
  | nil => rfl
  | cons ch s ih => exact congrArg (ch :: ·) ih

theorem withoutReturns_printed (lib : Library) (segs : List Segment) :
    withoutReturns (segs.flatMap (printed lib)) = segs.flatMap text := by
  have hone : ∀ seg, withoutReturns (printed lib seg) = text seg := by
    intro seg
    cases seg with
    | plain ch =>
      by_cases hc : ch = newline
      · simp [withoutReturns, printed, putAll, text, hc]
      · simp [withoutReturns, printed, putAll, text, hc]
    | int | unsigned | hex | str | char | other => exact withoutReturns_putAll lib _
  induction segs with
  | nil => rfl
  | cons seg segs ih =>
    rw [List.flatMap_cons, List.flatMap_cons, ← ih, ← hone seg]
    simp [withoutReturns]

end Printf
