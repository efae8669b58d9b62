import OppoOS.Printf
import OppoOS.WriteLog

/-!
# Formatting into a buffer

`vsnprintf`, the same text in `klib/stdio.c` and `user/libc/stdio.c`. It never asks for the
size `n` of the buffer, never ends the text with a NUL, and of a number or a string stores the
first character only while the index moves on by its length.
-/
namespace Snprintf

open ByteMemory CStrings Numerals Conversion FormatScan Printf

/-- The buffer, `bufferIdx`, the places written so far in order, and what has been put. -/
structure Buffer where
  mem : Mem
  bufferIdx : BitVec 32
  written : List ℕ
  out : List Put

structure State where
  args : List Arg
  buffer : Buffer

/-- `buffer[bufferIdx] = ch`. -/
def store (ch : UInt8) (b : Buffer) : Buffer :=
  { b with
    mem := Function.update b.mem b.bufferIdx.toNat ch
    written := b.written ++ [b.bufferIdx.toNat] }

/-- `bufferIdx += len`. -/
def advance (len : BitVec 32) (b : Buffer) : Buffer := { b with bufferIdx := b.bufferIdx + len }

/-- `putc`: the console, not the buffer. -/
def putc (lib : Library) (ch : UInt8) (b : Buffer) : Buffer :=
  { b with out := b.out ++ [⟨lib, ch, false⟩] }

/-- `buffer[bufferIdx] = *s; bufferIdx += strlen(s)`. -/
def storeString (s : List UInt8) (b : Buffer) : Option Buffer := do
  let ch ← s.head?
  let len ← strlen s
  some (advance len (store ch b))

def formatDirective (lib : Library) (ch : UInt8) (s : State) : Option State :=
  match directiveOf ch with
  | .d => do
    let (value, args) ← vaInt s.args
    let (value, b) :=
      if value.slt 0 then (-value, advance 1 (store (byte '-') s.buffer)) else (value, s.buffer)
    let temp ← utoa (value.signExtend 64) 10
    let b ← storeString temp b
    some ⟨args, b⟩
  | .u => do
    let (value, args) ← vaInt s.args
    let temp ← utoa (value.signExtend 64) 10
    let b ← storeString temp s.buffer
    some ⟨args, b⟩
  | .x => do
    let (value, args) ← vaInt s.args
    let temp ← utoa (value.setWidth 64) 16
    let b ← storeString temp s.buffer
    some ⟨args, b⟩
  | .s => do
    let (str, args) ← vaString s.args
    let b ← storeString str s.buffer
    some ⟨args, b⟩
  | .c => do
    let (value, args) ← vaInt s.args
    some ⟨args, advance 1 (store (toChar value) s.buffer)⟩
  | .other =>
    let b := putc lib ch (putc lib percent s.buffer)
    some ⟨s.args, advance 1 (store ch (advance 1 (store percent b)))⟩

def formatLiteral (ch : UInt8) (s : State) : State :=
  { s with buffer := advance 1 (store ch s.buffer) }

def formatActions (lib : Library) : Actions UInt8 State := ⟨formatDirective lib, formatLiteral⟩

def vsnprintf (lib : Library) (buffer : Mem) (_n : BitVec 64) (format : Mem) (args : List Arg)
    (fuel : ℕ) : Option Buffer :=
  (run percent 0 (formatActions lib) format fuel ⟨0, ⟨args, ⟨buffer, 0, [], []⟩⟩⟩).map
    fun s => s.data.buffer

/-- The text of a segment as `vsnprintf` counts it: `%x` takes an `unsigned int`. -/
def formatted : Segment → List UInt8
  | .hex w => hexText ((w.setWidth 32).setWidth 64)
  | seg => text seg

def front : Segment → ℕ
  | .int v => if v.slt 0 then 2 else 1
  | .other _ => 2
  | .plain _ | .unsigned _ | .hex _ | .str _ | .char _ => 1

/-- The characters stored, one after the other; of an empty string this is its NUL. -/
def stored (seg : Segment) : List UInt8 :=
  if formatted seg = [] then [0] else (formatted seg).take (front seg)

def width (seg : Segment) : ℕ := (formatted seg).length

def place (idx : BitVec 32) : List UInt8 → List (ℕ × UInt8)
  | [] => []
  | ch :: s => (idx.toNat, ch) :: place (idx + 1) s

/-- Where the segments store what: each begins at the sum of the widths before it. -/
def stores (idx : BitVec 32) : List Segment → List (ℕ × UInt8)
  | [] => []
  | seg :: segs => place idx (stored seg) ++ stores (idx + BitVec.ofNat 32 (width seg)) segs

def console (lib : Library) : Segment → List Put
  | .other ch => putAll lib [percent, ch]
  | .plain _ | .int _ | .unsigned _ | .hex _ | .str _ | .char _ => []

def lay (s : List UInt8) (len : ℕ) (b : Buffer) : Buffer :=
  { b with
    mem := WriteLog.apply b.mem (place b.bufferIdx s)
    bufferIdx := b.bufferIdx + BitVec.ofNat 32 len
    written := b.written ++ (place b.bufferIdx s).map Prod.fst }

def effect (lib : Library) (seg : Segment) (b : Buffer) : Buffer :=
  { lay (stored seg) (width seg) b with out := b.out ++ console lib seg }

theorem advance_store (ch : UInt8) (b : Buffer) (len : ℕ) :
    advance (BitVec.ofNat 32 len) (store ch b) = lay [ch] len b := rfl

theorem lay_lay (ch : UInt8) (s : List UInt8) (len : ℕ) (b : Buffer) :
    lay s len (lay [ch] 1 b) = lay (ch :: s) (len + 1) b := by
  simp only [lay, place, WriteLog.apply_cons, WriteLog.apply_nil, List.map_cons, List.map_nil,
    List.append_assoc, List.singleton_append, Buffer.mk.injEq, and_true]
  rw [BitVec.add_assoc, Nat.add_comm len 1, BitVec.ofNat_add]
  exact ⟨rfl, rfl, rfl⟩

theorem storeString_eq {s : List UInt8} (h : 0 ∈ s) (b : Buffer) :
    storeString s b =
      some (lay (if cString s = [] then [0] else (cString s).take 1) (cString s).length b) := by
  cases s with
  | nil => cases h
  | cons ch s =>
    simp only [storeString, List.head?_cons, strlen_eq h, Option.bind_eq_bind, Option.bind_some,
      advance_store]
    by_cases hc : ch = 0
    · subst hc
      simp
    · rw [cString_cons hc, if_neg (List.cons_ne_nil _ _)]
      rfl

theorem decimalText_ne_nil (value : BitVec 64) : decimalText value ≠ [] := by
  simpa [decimalText, chars] using numeral_ne_nil 10 value.toNat

theorem hexText_ne_nil (value : BitVec 64) : hexText value ≠ [] := by
  simpa [hexText, chars] using numeral_ne_nil 16 value.toNat

theorem storeString_decimal (value : BitVec 64) (b : Buffer) :
    storeString (decimalText value ++ [0]) b =
      some (lay ((decimalText value).take 1) (decimalText value).length b) := by
  have hs : cString (decimalText value ++ [0]) = decimalText value :=
    cString_numeral (by decide) (by decide) _
  rw [storeString_eq (by simp), hs, if_neg (decimalText_ne_nil value)]

theorem storeString_hex (value : BitVec 64) (b : Buffer) :
    storeString (hexText value ++ [0]) b =
      some (lay ((hexText value).take 1) (hexText value).length b) := by
  have hs : cString (hexText value ++ [0]) = hexText value :=
    cString_numeral (by decide) (by decide) _
  rw [storeString_eq (by simp), hs, if_neg (hexText_ne_nil value)]

theorem intText_ne_nil (v : BitVec 32) : intText v ≠ [] := by
  unfold intText
  split
  · exact List.cons_ne_nil _ _
  · exact decimalText_ne_nil _

theorem stored_of_ne_nil (seg : Segment) (h : formatted seg ≠ []) :
    stored seg = (formatted seg).take (front seg) := if_neg h

section
variable {lib : Library} {args rest : List Arg} {b : Buffer}

theorem effect_silent {seg : Segment} {s : List UInt8} {len : ℕ} (hc : console lib seg = [])
    (hs : stored seg = s) (hw : width seg = len) : effect lib seg b = lay s len b := by
  subst hs hw
  rw [effect, hc, List.append_nil]
  rfl

theorem formatDirective_segment {ch : UInt8} {seg : Segment}
    (h : directiveSegment ch args = some (seg, rest)) :
    formatDirective lib ch ⟨args, b⟩ = some ⟨rest, effect lib seg b⟩ := by
  unfold directiveSegment at h
  unfold formatDirective
  cases hd : directiveOf ch with
  | d =>
    simp only [hd, Option.map_eq_some_iff, Prod.mk.injEq] at h
    obtain ⟨⟨v, args'⟩, hv, rfl, rfl⟩ := h
    have hst := stored_of_ne_nil (.int v) (intText_ne_nil v)
    simp only [hv, Option.bind_eq_bind, Option.bind_some]
    by_cases hneg : v.slt 0 = true
    · have hone : advance 1 (store (byte '-') b) = lay [byte '-'] 1 b := rfl
      simp only [if_pos hneg, utoa_decimal, Option.bind_some, storeString_decimal, hone, lay_lay]
      simp only [formatted, text, intText, front, if_pos hneg, List.take_succ_cons] at hst
      have hw : width (.int v) = (decimalText ((-v).signExtend 64)).length + 1 := by
        simp only [width, formatted, text, intText, if_pos hneg, List.length_cons]
      rw [effect_silent rfl hst hw]
    · simp only [if_neg hneg, utoa_decimal, Option.bind_some, storeString_decimal]
      simp only [formatted, text, intText, front, if_neg hneg] at hst
      have hw : width (.int v) = (decimalText (v.signExtend 64)).length := by
        simp only [width, formatted, text, intText, if_neg hneg]
      rw [effect_silent rfl hst hw]
  | x =>
    simp only [hd, Option.map_eq_some_iff, Prod.mk.injEq] at h
    obtain ⟨⟨v, args'⟩, hv, rfl, rfl⟩ := h
    have hint : vaInt args = some (v.setWidth 32, args') := by rw [vaInt, hv, Option.map_some]
    have hst := stored_of_ne_nil (.hex v) (hexText_ne_nil _)
    simp only [hint, Option.bind_eq_bind, Option.bind_some, utoa_hex, storeString_hex]
    rw [effect_silent rfl hst rfl]
    rfl
  | u =>
    simp only [hd, Option.map_eq_some_iff, Prod.mk.injEq] at h
    obtain ⟨⟨v, args'⟩, hv, rfl, rfl⟩ := h
    have hst := stored_of_ne_nil (.unsigned v) (decimalText_ne_nil _)
    simp only [hv, Option.bind_eq_bind, Option.bind_some, utoa_decimal, storeString_decimal]
    rw [effect_silent rfl hst rfl]
    rfl
  | s =>
    simp only [hd] at h
    obtain ⟨⟨str, args'⟩, hv, hr⟩ := Option.bind_eq_some_iff.mp h
    simp only [Option.ite_none_right_eq_some, Option.some.injEq, Prod.mk.injEq] at hr
    obtain ⟨h0, rfl, rfl⟩ := hr
    simp only [hv, Option.bind_eq_bind, Option.bind_some, storeString_eq h0]
    rw [effect_silent rfl rfl rfl]
    rfl
  | c =>
    simp only [hd, Option.map_eq_some_iff, Prod.mk.injEq] at h
    obtain ⟨⟨v, args'⟩, hv, rfl, rfl⟩ := h
    simp only [hv, Option.bind_eq_bind, Option.bind_some]
    rw [effect_silent rfl rfl rfl]
    rfl
  | other =>
    simp only [hd, Option.some.injEq, Prod.mk.injEq] at h
    obtain ⟨rfl, rfl⟩ := h
    have hone : ∀ (ch : UInt8) (b : Buffer), advance 1 (store ch b) = lay [ch] 1 b :=
      fun _ _ => rfl
    simp only [hone, lay_lay, effect]
    simp [lay, putc, stored, width, formatted, text, front, console, putAll]

theorem formatLiteral_segment (lib : Library) (ch : UInt8) :
    formatLiteral ch ⟨args, b⟩ = ⟨args, effect lib (.plain ch) b⟩ := by
  rw [effect_silent rfl rfl rfl]
  rfl

end

theorem foldl_effect (lib : Library) (segs : List Segment) (b : Buffer) :
    segs.foldl (fun b seg => effect lib seg b) b =
      { mem := WriteLog.apply b.mem (stores b.bufferIdx segs)
        bufferIdx := b.bufferIdx + BitVec.ofNat 32 (segs.map width).sum
        written := b.written ++ (stores b.bufferIdx segs).map Prod.fst
        out := b.out ++ segs.flatMap (console lib) } := by
  induction segs generalizing b with
  | nil => simp [stores]
  | cons seg segs ih =>
    rw [List.foldl_cons, ih]
    simp only [effect, lay, stores, WriteLog.apply_append, List.map_append, List.append_assoc,
      List.flatMap_cons, List.map_cons, List.sum_cons, BitVec.ofNat_add, BitVec.add_assoc]

theorem perform_format (lib : Library) {l : List (Item UInt8)} {args : List Arg}
    {segs : List Segment} (h : segments l args = some segs) (b : Buffer) :
    ∃ rest, perform (formatActions lib) l ⟨args, b⟩ =
      some ⟨rest, segs.foldl (fun b seg => effect lib seg b) b⟩ :=
  perform_segments (A := formatActions lib) State.mk (effect lib)
    (fun _ _ _ _ _ hd => formatDirective_segment hd) (fun ch _ _ => formatLiteral_segment lib ch)
    h b

/-- `vsnprintf` lays out the segments of its format. -/
theorem vsnprintf_lays (lib : Library) (buffer : Mem) (n : BitVec 64) {format : Mem}
    {l : List UInt8} {args : List Arg} {segs : List Segment} (hf : StringAt 0 format 0 l)
    (hl : ¬ Lone percent l) (hs : segments (items percent 0 l) args = some segs) {fuel : ℕ}
    (hfuel : l.length < fuel) :
    vsnprintf lib buffer n format args fuel = some
      { mem := WriteLog.apply buffer (stores 0 segs)
        bufferIdx := BitVec.ofNat 32 (segs.map width).sum
        written := (stores 0 segs).map Prod.fst
        out := segs.flatMap (console lib) } := by
  obtain ⟨rest, hr⟩ := perform_format lib hs ⟨buffer, 0, [], []⟩
  rw [vsnprintf, run_string hf hl _ hfuel, hr, foldl_effect]
  simp only [Option.map_some, List.nil_append, Option.some.injEq, Buffer.mk.injEq, true_and,
    and_true]
  exact BitVec.zero_add _

theorem vsnprintf_unique {lib : Library} {buffer : Mem} {n : BitVec 64} {format : Mem}
    {args : List Arg} {b b' : Buffer} {fuel fuel' : ℕ}
    (h : vsnprintf lib buffer n format args fuel = some b)
    (h' : vsnprintf lib buffer n format args fuel' = some b') : b = b' := by
  obtain ⟨s, hs, rfl⟩ := Option.map_eq_some_iff.mp h
  obtain ⟨s', hs', rfl⟩ := Option.map_eq_some_iff.mp h'
  rw [run_unique hs hs']

/-- The call returns, has written below `n` only, and there is a NUL below `n`. -/
def Respects (lib : Library) (buffer : Mem) (n : BitVec 64) (format : Mem) (args : List Arg) :
    Prop :=
  ∃ fuel b, vsnprintf lib buffer n format args fuel = some b ∧
    (∀ k ∈ b.written, k < n.toNat) ∧ ∃ k, k < n.toNat ∧ b.mem k = 0

/-- `vsnprintf` keeps to the buffer exactly when every segment is stored below `n` as it
stands, and some place below `n` holds NUL: from before and not stored to, or stored there
last. -/
theorem vsnprintf_respects_iff (lib : Library) (buffer : Mem) (n : BitVec 64) (format : Mem)
    (l : List UInt8) (args : List Arg) (segs : List Segment) (hf : StringAt 0 format 0 l)
    (hl : ¬ Lone percent l) (hs : segments (items percent 0 l) args = some segs) :
    Respects lib buffer n format args ↔
      (∀ e ∈ stores 0 segs, e.1 < n.toNat) ∧
        ∃ k, k < n.toNat ∧ WriteLog.Holds buffer (stores 0 segs) k 0 := by
  have hrun := vsnprintf_lays lib buffer n hf hl hs (Nat.lt_succ_self _)
  constructor
  · rintro ⟨fuel, b, hb, hw, k, hk, h0⟩
    obtain rfl := vsnprintf_unique hb hrun
    exact ⟨fun e he => hw e.1 (List.mem_map_of_mem he), k, hk, WriteLog.apply_eq_iff.mp h0⟩
  · rintro ⟨hw, k, hk, h0⟩
    refine ⟨_, _, hrun, ?_, k, hk, WriteLog.apply_eq_iff.mpr h0⟩
    intro j hj
    obtain ⟨e, he, rfl⟩ := List.mem_map.mp hj
    exact hw e he

/-- `"%s!"` with `"hi"`, into zeros but for an `i` in place 1. -/
theorem string_respected :
    Respects .klib (fun k => if k = 1 then byte 'i' else 0) 8
      (formatMem [percent, byte 's', byte '!']) [.str [byte 'h', byte 'i', 0]] :=
  (vsnprintf_respects_iff .klib _ 8 (formatMem [percent, byte 's', byte '!'])
    [percent, byte 's', byte '!'] [.str [byte 'h', byte 'i', 0]]
    [.str [byte 'h', byte 'i'], .plain (byte '!')] (by decide) (by decide)
    (by decide)).mpr ⟨by decide, 3, by decide, Or.inl ⟨by decide, rfl⟩⟩

/-- `"hi"` with `n = 1` is written to places 0 and 1, and with `n = 8` into a buffer without a
NUL it gets none. -/
theorem hi_not_respected :
    ¬ Respects .klib (fun _ => 0) 1 (formatMem [byte 'h', byte 'i']) [] ∧
      ¬ Respects .klib (fun _ => 1) 8 (formatMem [byte 'h', byte 'i']) [] := by
  have hrun : ∀ buffer n, vsnprintf .klib buffer n (formatMem [byte 'h', byte 'i']) [] 3 = some
      { mem := WriteLog.apply buffer (stores 0 [.plain (byte 'h'), .plain (byte 'i')])
        bufferIdx := 2
        written := [0, 1]
        out := [] } := fun buffer n =>
    vsnprintf_lays .klib buffer n (l := [byte 'h', byte 'i']) (by decide) (by decide) rfl
      (by decide)
  constructor
  · rintro ⟨fuel, b, hb, hw, -⟩
    obtain rfl := vsnprintf_unique hb (hrun _ _)
    exact absurd (hw 1 (by decide)) (by decide)
  · rintro ⟨fuel, b, hb, -, k, hk, h0⟩
    obtain rfl := vsnprintf_unique hb (hrun _ _)
    revert k
    decide

end Snprintf
