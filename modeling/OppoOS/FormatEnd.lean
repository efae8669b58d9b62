import OppoOS.Snprintf

/-!
# Where scanning a format stops

After a `'%'` both functions take the next character as the directive and step over it, also
when it is the terminator of the format.
-/
namespace FormatEnd

open ByteMemory Conversion FormatScan Printf Snprintf

/-- `vprintf` reads nothing behind the terminator at `e`, and its states, with all they have
put, do not depend on what is there. -/
def PrintStops (lib : Library) (format : Mem) (args : List Arg) (e : ℕ) : Prop :=
  Stops percent 0 (printActions lib) format ⟨args, []⟩ e

/-- The same for `vsnprintf`, with all it has written. -/
def FormatStops (lib : Library) (buffer format : Mem) (args : List Arg) (e : ℕ) : Prop :=
  Stops percent 0 (formatActions lib) format ⟨args, ⟨buffer, 0, [], []⟩⟩ e

theorem perform_print_ne_none (lib : Library) {l : List (Item UInt8)} {args : List Arg}
    {segs : List Segment} (hs : segments l args = some segs) :
    perform (printActions lib) l ⟨args, []⟩ ≠ none := by
  obtain ⟨rest, hr⟩ := perform_print lib hs
  rw [hr]
  exact Option.some_ne_none _

theorem perform_format_ne_none (lib : Library) {l : List (Item UInt8)} {args : List Arg}
    {segs : List Segment} (hs : segments l args = some segs) (b : Buffer) :
    perform (formatActions lib) l ⟨args, b⟩ ≠ none := by
  obtain ⟨rest, hr⟩ := perform_format lib hs b
  rw [hr]
  exact Option.some_ne_none _

theorem not_lone_iff (l : List UInt8) : ¬ Lone percent l ↔ trailing percent l % 2 = 0 := by
  rw [lone_iff]
  omega

/-- Scanning stops at the terminator exactly when the format ends in an even number of percent
signs. -/
theorem format_end_iff (lib : Library) (format : Mem) (l : List UInt8) (args : List Arg)
    (segs : List Segment) (hf : StringAt 0 format 0 l)
    (hs : segments (items percent 0 l) args = some segs) :
    (PrintStops lib format args l.length ↔ trailing percent l % 2 = 0) ∧
      ∀ buffer, FormatStops lib buffer format args l.length ↔ trailing percent l % 2 = 0 := by
  rw [← not_lone_iff]
  exact ⟨stops_iff hf (perform_print_ne_none lib hs),
    fun buffer => stops_iff hf (perform_format_ne_none lib hs _)⟩

/-- `"1%%"`. -/
theorem percent_pair_stops :
    PrintStops .klib (formatMem [byte '1', percent, percent]) [] 3 :=
  (format_end_iff .klib (formatMem [byte '1', percent, percent]) [byte '1', percent, percent] []
    [.plain (byte '1'), .other percent] (by decide) rfl).1.mpr (by decide)

def percentA : Mem := formatMem [percent, 0, byte 'A']

/-- The `'A'` is read, and put. -/
theorem lone_percent_reads_on :
    (¬ PrintStops .klib percentA [] 1 ∧ ¬ FormatStops .klib (fun _ => 0) percentA [] 1) ∧
      vprintf .klib percentA [] 3 = some (putAll .klib [percent, 0, byte 'A']) := by
  refine ⟨⟨fun h => ?_, fun h => ?_⟩, by decide⟩
  · have hr := h.reads _ _ (.tail .refl (by decide) rfl) (Or.inl rfl)
    exact absurd hr (by decide)
  · have hr := h.reads _ _ (.tail .refl (by decide) rfl) (Or.inl rfl)
    exact absurd hr (by decide)

end FormatEnd
