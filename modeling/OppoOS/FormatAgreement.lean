import OppoOS.Snprintf
import Mathlib.Algebra.Order.BigOperators.Group.List

/-!
# `vsnprintf` against `vprintf`

The two print the same text only where what `vsnprintf` does not store is in the buffer
already.
-/
namespace FormatAgreement

open ByteMemory Numerals Conversion FormatScan Printf Snprintf

/-- Both calls return, `vsnprintf` puts nothing on the console, and the characters below its
final index are those `vprintf` puts, without the carriage returns before newlines. -/
def Agrees (lib : Library) (buffer : Mem) (n : BitVec 64) (format : Mem) (args : List Arg) :
    Prop :=
  ∃ fuel out b, vprintf lib format args fuel = some out ∧
    vsnprintf lib buffer n format args fuel = some b ∧ b.out = [] ∧
    (List.range b.bufferIdx.toNat).map b.mem = withoutReturns out

def BytesAt (m : Mem) (o : ℕ) (s : List UInt8) : Prop := ∀ j ch, s[j]? = some ch → m (o + j) = ch

/-- Of every segment laid out from `o` on, what is not stored is in the buffer. -/
def Stands (m : Mem) : ℕ → List Segment → Prop
  | _, [] => True
  | o, seg :: segs =>
    BytesAt m (o + front seg) ((text seg).drop (front seg)) ∧
      Stands m (o + (text seg).length) segs

/-- No unknown directive, a text whose length has 32 bits, no `%x` of a wider number, and what
is not stored is in the buffer. -/
structure Aligned (buffer : Mem) (segs : List Segment) : Prop where
  known : ∀ ch, .other ch ∉ segs
  short : (segs.flatMap text).length < 2 ^ 32
  narrow : ∀ w, .hex w ∈ segs → w.toNat < 2 ^ 32
  stands : Stands buffer 0 segs

section
variable {m m' : Mem} {o : ℕ} {s t : List UInt8}

theorem bytesAt_nil (m : Mem) (o : ℕ) : BytesAt m o [] := by
  intro j ch h
  cases h

theorem bytesAt_append :
    BytesAt m o (s ++ t) ↔ BytesAt m o s ∧ BytesAt m (o + s.length) t := by
  constructor
  · intro h
    constructor
    · intro j ch hj
      have hlt := (List.getElem?_eq_some_iff.mp hj).1
      exact h j ch (by rwa [List.getElem?_append_left hlt])
    · intro j ch hj
      rw [Nat.add_assoc]
      exact h (s.length + j) ch (by
        rwa [List.getElem?_append_right (by omega), Nat.add_sub_cancel_left])
  · rintro ⟨hs, ht⟩ j ch hj
    by_cases hlt : j < s.length
    · rw [List.getElem?_append_left hlt] at hj
      exact hs j ch hj
    · rw [List.getElem?_append_right (by omega)] at hj
      have hb := ht (j - s.length) ch hj
      rwa [Nat.add_assoc, Nat.add_sub_cancel' (by omega)] at hb

theorem bytesAt_congr (h : ∀ k, o ≤ k → k < o + s.length → m' k = m k) :
    BytesAt m' o s ↔ BytesAt m o s := by
  refine forall_congr' fun j => forall_congr' fun ch => imp_congr_right fun hj => ?_
  have hlt := (List.getElem?_eq_some_iff.mp hj).1
  rw [h (o + j) (by omega) (by omega)]

theorem range_map_eq_iff {n : ℕ} :
    (List.range n).map m = s ↔ n = s.length ∧ BytesAt m 0 s := by
  constructor
  · rintro rfl
    refine ⟨by simp, fun j ch hj => ?_⟩
    rw [List.getElem?_map, Option.map_eq_some_iff] at hj
    obtain ⟨k, hk, rfl⟩ := hj
    have hlt := (List.getElem?_eq_some_iff.mp hk).1
    rw [List.getElem?_eq_getElem hlt, List.getElem_range, Option.some.injEq] at hk
    rw [hk, Nat.zero_add]
  · rintro ⟨rfl, hb⟩
    apply List.ext_getElem
    · simp
    · intro j hj hj'
      have hm := hb j s[j] (List.getElem?_eq_getElem hj')
      rw [List.getElem_map, List.getElem_range, ← hm, Nat.zero_add]

end

section
variable {o : ℕ} {s : List UInt8}

theorem place_cons (ho : o < 2 ^ 32) (ch : UInt8) (s : List UInt8) :
    place (BitVec.ofNat 32 o) (ch :: s) = (o, ch) :: place (BitVec.ofNat 32 (o + 1)) s := by
  rw [place, BitVec.toNat_ofNat, Nat.mod_eq_of_lt ho, BitVec.ofNat_add]
  rfl

theorem mem_place (h : o + s.length ≤ 2 ^ 32) {k : ℕ}
    (hk : k ∈ (place (BitVec.ofNat 32 o) s).map Prod.fst) : o ≤ k ∧ k < o + s.length := by
  induction s generalizing o with
  | nil => cases hk
  | cons ch s ih =>
    rw [List.length_cons] at h ⊢
    rw [place_cons (by omega), List.map_cons, List.mem_cons] at hk
    rcases hk with rfl | hk
    · omega
    · have hs := ih (by omega) hk
      omega

theorem apply_place_outside (h : o + s.length ≤ 2 ^ 32) (m : Mem) {k : ℕ}
    (hk : k < o ∨ o + s.length ≤ k) :
    WriteLog.apply m (place (BitVec.ofNat 32 o) s) k = m k := by
  refine WriteLog.apply_outside (fun hmem => ?_) m
  have hin := mem_place h hmem
  omega

theorem apply_place (h : o + s.length ≤ 2 ^ 32) (m : Mem) :
    BytesAt (WriteLog.apply m (place (BitVec.ofNat 32 o) s)) o s := by
  induction s generalizing o m with
  | nil => exact bytesAt_nil _ _
  | cons ch s ih =>
    rw [List.length_cons] at h
    rw [place_cons (by omega), WriteLog.apply_cons]
    intro j c hj
    cases j with
    | zero =>
      have hout := apply_place_outside (o := o + 1) (s := s) (by omega) (Function.update m o ch)
        (Or.inl (Nat.lt_succ_self o))
      rw [Function.update_self] at hout
      exact hout.trans (Option.some.inj hj)
    | succ j =>
      have hb := ih (o := o + 1) (by omega) (Function.update m o ch) j c hj
      rwa [Nat.add_assoc, Nat.add_comm 1] at hb

end

theorem front_pos (seg : Segment) : 1 ≤ front seg := by
  cases seg with
  | int v =>
    simp only [front]
    split <;> omega
  | other => exact one_le_two
  | plain | unsigned | hex | str | char => exact le_rfl

theorem front_le {seg : Segment} (h : text seg ≠ []) : front seg ≤ (text seg).length := by
  have hpos := List.length_pos_iff.mpr h
  cases seg with
  | int v =>
    by_cases hneg : v.slt 0 = true
    · have hd := List.length_pos_iff.mpr (decimalText_ne_nil ((-v).signExtend 64))
      rw [front, if_pos hneg, text, intText, if_pos hneg, List.length_cons]
      omega
    · rw [front, if_neg hneg]
      exact hpos
  | other ch => exact le_rfl
  | plain | unsigned | hex | str | char => exact hpos

/-- Storing a segment in place leaves its text there if the rest of it was there. -/
theorem segment_iff {seg : Segment} (hseg : formatted seg = text seg) {o : ℕ}
    (ho : o + (text seg).length < 2 ^ 32) (m : Mem) :
    BytesAt (WriteLog.apply m (place (BitVec.ofNat 32 o) (stored seg))) o (text seg) ↔
      BytesAt m (o + front seg) ((text seg).drop (front seg)) := by
  by_cases hne : text seg = []
  · rw [hne, List.drop_nil]
    exact iff_of_true (bytesAt_nil _ _) (bytesAt_nil _ _)
  · have hle := front_le hne
    have hst : stored seg = (text seg).take (front seg) := by
      rw [stored_of_ne_nil _ (hseg.symm ▸ hne), hseg]
    have hlen : (stored seg).length = front seg := by
      rw [hst, List.length_take, min_eq_left hle]
    have hroom : o + (stored seg).length ≤ 2 ^ 32 := by omega
    have hplaced := apply_place hroom m
    have hrest : BytesAt (WriteLog.apply m (place (BitVec.ofNat 32 o) (stored seg)))
        (o + front seg) ((text seg).drop (front seg)) ↔
          BytesAt m (o + front seg) ((text seg).drop (front seg)) :=
      bytesAt_congr fun k hk _ => apply_place_outside hroom m (Or.inr (by omega))
    have hsplit := bytesAt_append (m := WriteLog.apply m (place (BitVec.ofNat 32 o) (stored seg)))
      (o := o) (s := stored seg) (t := (text seg).drop (front seg))
    rw [hlen, hrest] at hsplit
    have htext : stored seg ++ (text seg).drop (front seg) = text seg := by
      rw [hst, List.take_append_drop]
    rw [htext] at hsplit
    rw [hsplit]
    exact and_iff_right hplaced

theorem stored_length_le {seg : Segment} (hseg : formatted seg = text seg) :
    (stored seg).length ≤ (text seg).length + 1 := by
  unfold stored
  rw [hseg]
  split
  · rw [List.length_singleton]
    omega
  · rw [List.length_take]
    omega

theorem stands_congr {m m' : Mem} {segs : List Segment} {o : ℕ} (h : ∀ k, o < k → m' k = m k) :
    Stands m' o segs ↔ Stands m o segs := by
  induction segs generalizing o with
  | nil => exact Iff.rfl
  | cons seg segs ih =>
    have hf := front_pos seg
    exact and_congr (bytesAt_congr fun k hk _ => h k (by omega)) (ih fun k hk => h k (by omega))

theorem stores_cons {seg : Segment} (hseg : formatted seg = text seg) (o : ℕ)
    (segs : List Segment) :
    stores (BitVec.ofNat 32 o) (seg :: segs) =
      place (BitVec.ofNat 32 o) (stored seg) ++
        stores (BitVec.ofNat 32 (o + (text seg).length)) segs := by
  rw [stores, width, hseg, BitVec.ofNat_add]

section
variable {segs : List Segment}

theorem mem_stores (hsegs : ∀ seg ∈ segs, formatted seg = text seg) {o : ℕ}
    (ho : o + (segs.flatMap text).length < 2 ^ 32) {k : ℕ}
    (hk : k ∈ (stores (BitVec.ofNat 32 o) segs).map Prod.fst) : o ≤ k := by
  induction segs generalizing o with
  | nil => cases hk
  | cons seg segs ih =>
    have hseg := hsegs seg List.mem_cons_self
    have hlen := stored_length_le hseg
    rw [List.flatMap_cons, List.length_append] at ho
    rw [stores_cons hseg, List.map_append, List.mem_append] at hk
    rcases hk with hk | hk
    · exact (mem_place (by omega) hk).1
    · have hle := ih (fun seg h => hsegs seg (List.mem_cons_of_mem _ h)) (by omega) hk
      omega

/-- What the buffer holds after all stores is the text exactly when the rest of every segment
was there before. -/
theorem contents_iff (hsegs : ∀ seg ∈ segs, formatted seg = text seg) {o : ℕ}
    (ho : o + (segs.flatMap text).length < 2 ^ 32) (m : Mem) :
    BytesAt (WriteLog.apply m (stores (BitVec.ofNat 32 o) segs)) o (segs.flatMap text) ↔
      Stands m o segs := by
  induction segs generalizing o m with
  | nil => exact iff_of_true (bytesAt_nil _ _) trivial
  | cons seg segs ih =>
    have hseg := hsegs seg List.mem_cons_self
    have hrest : ∀ seg ∈ segs, formatted seg = text seg :=
      fun seg h => hsegs seg (List.mem_cons_of_mem _ h)
    have hlen := stored_length_le hseg
    rw [List.flatMap_cons, List.length_append] at ho
    have hlater : ∀ k, o ≤ k → k < o + (text seg).length →
        k ∉ (stores (BitVec.ofNat 32 (o + (text seg).length)) segs).map Prod.fst := by
      intro k _ hk hmem
      have hle := mem_stores hrest (by omega) hmem
      omega
    rw [List.flatMap_cons, bytesAt_append, stores_cons hseg, WriteLog.apply_append,
      bytesAt_congr fun k hl hr => WriteLog.apply_outside (hlater k hl hr) _,
      segment_iff hseg (by omega), ih hrest (by omega)]
    refine and_congr_right fun _ => stands_congr fun k hk => ?_
    exact apply_place_outside (by omega) m (Or.inr (by omega))

end

theorem length_hexText_le_iff {value : BitVec 64} {k : ℕ} (hk : k ≠ 0) :
    (hexText value).length ≤ k ↔ value.toNat < 16 ^ k := by
  rw [hexText, chars, List.length_map, length_numeral_le_iff (by decide) hk]

theorem low_toNat (w : BitVec 64) : ((w.setWidth 32).setWidth 64).toNat = w.toNat % 2 ^ 32 := by
  rw [BitVec.toNat_setWidth, BitVec.toNat_setWidth]
  omega

theorem width_le (seg : Segment) : width seg ≤ (text seg).length := by
  cases seg with
  | hex w =>
    have hne : (hexText w).length ≠ 0 := List.length_eq_zero_iff.not.mpr (hexText_ne_nil w)
    have hw := (length_hexText_le_iff hne).mp le_rfl
    have hle := Nat.mod_le w.toNat (2 ^ 32)
    refine (length_hexText_le_iff hne).mpr ?_
    rw [low_toNat]
    omega
  | plain | int | unsigned | str | char | other => exact le_rfl

theorem hex_width_eq_iff (w : BitVec 64) :
    width (.hex w) = (text (.hex w)).length ↔ w.toNat < 2 ^ 32 := by
  constructor
  · intro h
    have hlow : width (.hex w) ≤ 8 := by
      refine (length_hexText_le_iff (by decide)).mpr ?_
      rw [low_toNat]
      exact Nat.mod_lt _ (by decide)
    rw [h] at hlow
    exact (length_hexText_le_iff (by decide)).mp hlow
  · intro h
    have hw : (w.setWidth 32).setWidth 64 = w :=
      BitVec.eq_of_toNat_eq (by rw [low_toNat, Nat.mod_eq_of_lt h])
    rw [width, formatted, hw]
    rfl

theorem formatted_eq {segs : List Segment} (h : ∀ w, .hex w ∈ segs → w.toNat < 2 ^ 32) :
    ∀ seg ∈ segs, formatted seg = text seg := by
  intro seg hseg
  cases seg with
  | hex w =>
    have hw : (w.setWidth 32).setWidth 64 = w :=
      BitVec.eq_of_toNat_eq (by rw [low_toNat, Nat.mod_eq_of_lt (h w hseg)])
    rw [formatted, hw]
    rfl
  | plain | int | unsigned | str | char | other => rfl

theorem sum_width_le (segs : List Segment) :
    (segs.map width).sum ≤ (segs.flatMap text).length := by
  rw [List.length_flatMap]
  exact List.sum_le_sum fun seg _ => width_le seg

theorem index_eq_iff (segs : List Segment) :
    (BitVec.ofNat 32 (segs.map width).sum).toNat = (segs.flatMap text).length ↔
      (segs.flatMap text).length < 2 ^ 32 ∧ ∀ w, .hex w ∈ segs → w.toNat < 2 ^ 32 := by
  have hle := sum_width_le segs
  rw [BitVec.toNat_ofNat]
  constructor
  · intro h
    have hmod := Nat.mod_le (segs.map width).sum (2 ^ 32)
    have hlt := Nat.mod_lt (segs.map width).sum (by decide : 2 ^ 32 > 0)
    refine ⟨by omega, fun w hw => ?_⟩
    rw [← hex_width_eq_iff]
    by_contra hne
    have hsum := List.sum_lt_sum width (fun seg => (text seg).length) (fun seg _ => width_le seg)
      ⟨_, hw, Nat.lt_of_le_of_ne (width_le _) hne⟩
    rw [← List.length_flatMap] at hsum
    omega
  · rintro ⟨hlt, hnarrow⟩
    have hsum : (segs.map width).sum = (segs.flatMap text).length := by
      rw [List.length_flatMap]
      refine congrArg List.sum (List.map_congr_left fun seg hseg => ?_)
      rw [width, formatted_eq hnarrow seg hseg]
    rw [hsum, Nat.mod_eq_of_lt hlt]

theorem console_eq_nil_iff (lib : Library) (segs : List Segment) :
    segs.flatMap (console lib) = [] ↔ ∀ ch, .other ch ∉ segs := by
  rw [List.flatMap_eq_nil_iff]
  constructor
  · intro h ch hch
    exact absurd (h _ hch) (List.cons_ne_nil _ _)
  · intro h seg hseg
    cases seg with
    | other ch => exact absurd hseg (h ch)
    | plain | int | unsigned | hex | str | char => rfl

theorem agrees_iff {lib : Library} {buffer : Mem} {n : BitVec 64} {format : Mem}
    {l : List UInt8} {args : List Arg} {segs : List Segment} (hf : StringAt 0 format 0 l)
    (hl : ¬ Lone percent l) (hs : segments (items percent 0 l) args = some segs) :
    Agrees lib buffer n format args ↔
      segs.flatMap (console lib) = [] ∧
        (List.range (BitVec.ofNat 32 (segs.map width).sum).toNat).map
          (WriteLog.apply buffer (stores 0 segs)) = segs.flatMap text := by
  have hp := vprintf_prints lib hf hl hs (Nat.lt_succ_self _)
  have hb := vsnprintf_lays lib buffer n hf hl hs (Nat.lt_succ_self _)
  constructor
  · rintro ⟨fuel, out, b, hout, hbuf, hsilent, htext⟩
    obtain rfl := vsnprintf_unique hbuf hb
    obtain rfl := vprintf_unique hout hp
    rw [withoutReturns_printed] at htext
    exact ⟨hsilent, htext⟩
  · rintro ⟨hsilent, htext⟩
    exact ⟨_, _, _, hp, hb, hsilent, by rw [withoutReturns_printed, htext]⟩

/-- `vsnprintf` and `vprintf` agree exactly when no directive is unknown, the text is shorter
than 2^32, no `%x` is given more than 32 bits, and what `vsnprintf` leaves out of a number or a
string stands in the buffer already. -/
theorem format_agreement_iff (lib : Library) (buffer : Mem) (n : BitVec 64) (format : Mem)
    (l : List UInt8) (args : List Arg) (segs : List Segment) (hf : StringAt 0 format 0 l)
    (hl : ¬ Lone percent l) (hs : segments (items percent 0 l) args = some segs) :
    Agrees lib buffer n format args ↔ Aligned buffer segs := by
  rw [agrees_iff hf hl hs, console_eq_nil_iff, range_map_eq_iff, index_eq_iff]
  have hcontents (hnarrow : ∀ w, .hex w ∈ segs → w.toNat < 2 ^ 32)
      (hlt : (segs.flatMap text).length < 2 ^ 32) :
      BytesAt (WriteLog.apply buffer (stores 0 segs)) 0 (segs.flatMap text) ↔
        Stands buffer 0 segs :=
    contents_iff (o := 0) (formatted_eq hnarrow) (by rwa [Nat.zero_add]) buffer
  constructor
  · rintro ⟨hknown, ⟨hlt, hnarrow⟩, hbytes⟩
    exact ⟨hknown, hlt, hnarrow, (hcontents hnarrow hlt).mp hbytes⟩
  · intro h
    exact ⟨h.known, ⟨h.short, h.narrow⟩, (hcontents h.narrow h.short).mpr h.stands⟩

/-- `"%d"` with 42, into a buffer whose place 1 holds the second digit. -/
theorem number_agrees : Agrees .klib (fun k => if k = 1 then byte '2' else 0) 8
    (formatMem [percent, byte 'd']) [.word 42] :=
  (format_agreement_iff .klib _ 8 (formatMem [percent, byte 'd']) [percent, byte 'd'] [.word 42]
    [.int 42] (by decide) (by decide) (by decide)).mpr
    { known := by simp
      short := by decide
      narrow := by simp
      stands := by
        refine ⟨?_, trivial⟩
        have hrest : (text (.int 42)).drop (front (.int 42)) = [byte '2'] := by decide
        rw [hrest]
        rintro (_ | j) ch hj
        · exact Option.some.inj hj
        · cases hj }

/-- Of 42 the first digit is stored only, and two percent signs go to the console. -/
theorem number_disagrees :
    ¬ Agrees .klib (fun _ => 0) 8 (formatMem [percent, byte 'd']) [.word 42] ∧
      ¬ Agrees .klib (fun _ => 0) 8 (formatMem [percent, percent]) [] := by
  constructor
  · rintro ⟨fuel, out, b, hout, hbuf, -, htext⟩
    have hp : vprintf .klib (formatMem [percent, byte 'd']) [.word 42] 3 =
        some (putAll .klib [byte '4', byte '2']) := by decide
    have hb : (vsnprintf .klib (fun _ => 0) 8 (formatMem [percent, byte 'd']) [.word 42] 3).map
        (fun b => (List.range b.bufferIdx.toNat).map b.mem) = some [byte '4', 0] := by decide
    obtain ⟨b', hb', htext'⟩ := Option.map_eq_some_iff.mp hb
    obtain rfl := vsnprintf_unique hbuf hb'
    obtain rfl := vprintf_unique hout hp
    rw [htext', withoutReturns_putAll] at htext
    exact absurd htext (by decide)
  · rintro ⟨fuel, out, b, -, hbuf, hsilent, -⟩
    have hb : (vsnprintf .klib (fun _ => 0) 8 (formatMem [percent, percent]) [] 3).map
        Buffer.out = some (putAll .klib [percent, percent]) := by decide
    obtain ⟨b', hb', hout'⟩ := Option.map_eq_some_iff.mp hb
    obtain rfl := vsnprintf_unique hbuf hb'
    rw [hout'] at hsilent
    cases hsilent

end FormatAgreement
