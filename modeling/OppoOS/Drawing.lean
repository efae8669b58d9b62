import OppoOS.Painting

/-!
# Drawing rectangles

`set_pixel`, `fill_rect`, `stroke_rect` and `draw_rect` of `drivers/virtio/virtio_gpu.c`. All
but `set_pixel` hand the target buffer on; `set_pixel` writes to the global `framebuffer`.
-/
namespace Drawing

open Painting

structure Pixel where
  r : UInt8
  g : UInt8
  b : UInt8
  a : UInt8
  deriving DecidableEq, Repr

def gpuDefaultWidth : ℕ := 640
def gpuDefaultHeight : ℕ := 480

/-- The pixel buffers: the pixel at an index of the buffer at an address. -/
structure State where
  framebuffer : ℕ
  pixels : ℕ × ℕ → Pixel

def setPixel (s : State) (_fb : ℕ) (x y : BitVec 32) (color : Pixel) : State :=
  if x < BitVec.ofNat 32 gpuDefaultWidth ∧ y < BitVec.ofNat 32 gpuDefaultHeight then
    { s with
      pixels := Function.update s.pixels
        (s.framebuffer, (y * BitVec.ofNat 32 gpuDefaultWidth + x).toNat) color }
  else s

def fillRect (s : State) (fb : ℕ) (x y w h : BitVec 32) (color : Pixel) : State :=
  forUp (fun row s => forUp (fun col s => setPixel s fb col row color) x (x + w) s) y (y + h) s

def strokeRect (s : State) (fb : ℕ) (x y w h : BitVec 32) (color : Pixel)
    (size : BitVec 32) : State :=
  let s := fillRect s fb x y w size color
  let s := fillRect s fb x (y + h) w size color
  let s := fillRect s fb x y size h color
  fillRect s fb (x + w) y size (h + size) color

def drawRect (s : State) (fb : ℕ) (x y w h size : BitVec 32) (color : Pixel) : State :=
  if size = 0 then fillRect s fb x y w h color else strokeRect s fb x y w h color size

abbrev Point := ℕ × ℕ

def screen : Set Point := {p | p.1 < gpuDefaultWidth ∧ p.2 < gpuDefaultHeight}

instance (p : Point) : Decidable (p ∈ screen) := inferInstanceAs (Decidable (_ ∧ _))

def box (x y w h : ℕ) : Set Point := {p | (x ≤ p.1 ∧ p.1 < x + w) ∧ y ≤ p.2 ∧ p.2 < y + h}

def frame (x y w h size : ℕ) : Set Point :=
  {p | p ∈ box x y (w + size) (h + size) ∧
    ¬ ((x + size ≤ p.1 ∧ p.1 < x + w) ∧ y + size ≤ p.2 ∧ p.2 < y + h)}

def index (p : Point) : ℕ := p.2 * gpuDefaultWidth + p.1

def cells (fb : ℕ) (R : Set Point) : Set (ℕ × ℕ) := (fun p => (fb, index p)) '' (R ∩ screen)

/-- The pixels of `fb` in the region get the color; no other pixel of any buffer changes. -/
structure Paints (s t : State) (fb : ℕ) (R : Set Point) (color : Pixel) : Prop where
  inside : ∀ p, p ∈ R → p ∈ screen → t.pixels (fb, index p) = color
  outside : ∀ k, k ∉ cells fb R → t.pixels k = s.pixels k

theorem cells_union (fb : ℕ) (R S : Set Point) : cells fb (R ∪ S) = cells fb R ∪ cells fb S := by
  rw [cells, Set.union_inter_distrib_right, Set.image_union]
  rfl

theorem cells_buffer {fb : ℕ} {R : Set Point} {k : ℕ × ℕ} (h : k ∈ cells fb R) : k.1 = fb := by
  obtain ⟨p, -, rfl⟩ := h
  rfl

theorem paints_iff {s t : State} {fb : ℕ} {R : Set Point} {color : Pixel} :
    Paints s t fb R color ↔ t.pixels = paint (cells fb R) color s.pixels := by
  constructor
  · intro h
    funext k
    by_cases hk : k ∈ cells fb R
    · rw [paint_inside hk]
      obtain ⟨p, ⟨hR, hs⟩, rfl⟩ := hk
      exact h.inside p hR hs
    · rw [paint_outside hk]
      exact h.outside k hk
  · intro h
    constructor
    · intro p hR hs
      rw [h]
      exact paint_inside ⟨p, ⟨hR, hs⟩, rfl⟩
    · intro k hk
      rw [h]
      exact paint_outside hk

section
variable (s : State) (fb : ℕ) (x y w h : BitVec 32) (color : Pixel)

@[simp] theorem setPixel_framebuffer :
    (setPixel s fb x y color).framebuffer = s.framebuffer := by
  unfold setPixel
  split <;> rfl

theorem setPixel_pixels : (setPixel s fb x y color).pixels =
    paint (cells s.framebuffer {(x.toNat, y.toNat)}) color s.pixels := by
  unfold setPixel
  have hx := x.isLt
  have hy := y.isLt
  split
  · next hs =>
    simp only [BitVec.lt_def, BitVec.toNat_ofNat, gpuDefaultWidth, gpuDefaultHeight] at hs
    have hi : (y * BitVec.ofNat 32 gpuDefaultWidth + x).toNat = index (x.toNat, y.toNat) := by
      simp only [BitVec.toNat_add, BitVec.toNat_mul, BitVec.toNat_ofNat, index, gpuDefaultWidth]
      omega
    have hone : cells s.framebuffer {(x.toNat, y.toNat)} =
        {(s.framebuffer, index (x.toNat, y.toNat))} := by
      have hin : {(x.toNat, y.toNat)} ∩ screen = {(x.toNat, y.toNat)} :=
        Set.inter_eq_left.mpr (Set.singleton_subset_iff.mpr (by
          simp only [screen, Set.mem_ofPred_eq, gpuDefaultWidth, gpuDefaultHeight]
          omega))
      rw [cells, hin, Set.image_singleton]
    rw [hone, paint_singleton, hi]
  · next hs =>
    simp only [BitVec.lt_def, BitVec.toNat_ofNat, gpuDefaultWidth, gpuDefaultHeight] at hs
    have hnone : cells s.framebuffer {(x.toNat, y.toNat)} = ∅ := by
      refine Set.image_eq_empty.mpr (Set.singleton_inter_eq_empty.mpr ?_)
      simp only [screen, Set.mem_ofPred_eq, gpuDefaultWidth, gpuDefaultHeight]
      omega
    rw [hnone, paint_empty]

/-- What `fill_rect` paints: the loop bounds `x + w` and `y + h` have 32 bits. -/
def filled (x y w h : BitVec 32) : Set Point :=
  {p | (x.toNat ≤ p.1 ∧ p.1 < (x + w).toNat) ∧ y.toNat ≤ p.2 ∧ p.2 < (y + h).toNat}

theorem between_points (fb lo hi : ℕ) (R : ℕ → Set Point) :
    between (fun n => cells fb (R n)) lo hi = cells fb (between R lo hi) := by
  ext k
  constructor
  · rintro ⟨n, hn, p, ⟨hR, hs⟩, rfl⟩
    exact ⟨p, ⟨⟨n, hn, hR⟩, hs⟩, rfl⟩
  · rintro ⟨p, ⟨⟨n, hn, hR⟩, hs⟩, rfl⟩
    exact ⟨n, hn, p, ⟨hR, hs⟩, rfl⟩

theorem fillRow_paints (row bound : BitVec 32) (col : BitVec 32) :
    (forUp (fun col s => setPixel s fb col row color) col bound s).framebuffer =
        s.framebuffer ∧
      (forUp (fun col s => setPixel s fb col row color) col bound s).pixels =
        paint (cells s.framebuffer
          (between (fun n => {(n, row.toNat)}) col.toNat bound.toNat)) color s.pixels := by
  rw [← between_points]
  refine forUp_paint State.pixels _ color (fun t => t.framebuffer = s.framebuffer) rfl
    fun j t _ ht => ⟨?_, ?_⟩
  · rw [setPixel_framebuffer, ht]
  · rw [setPixel_pixels, ht]

theorem fillRect_paints :
    (fillRect s fb x y w h color).framebuffer = s.framebuffer ∧
      (fillRect s fb x y w h color).pixels =
        paint (cells s.framebuffer (filled x y w h)) color s.pixels := by
  have hrows : filled x y w h = between (fun m => between (fun n => {(n, m)}) x.toNat
      (x + w).toNat) y.toNat (y + h).toNat := by
    ext ⟨n, m⟩
    constructor
    · rintro ⟨hn, hm⟩
      exact ⟨m, hm, n, hn, rfl⟩
    · rintro ⟨m', hm, n', hn, hp⟩
      obtain ⟨rfl, rfl⟩ := Prod.mk.inj hp
      exact ⟨hn, hm⟩
  rw [hrows, ← between_points]
  refine forUp_paint State.pixels _ color (fun t => t.framebuffer = s.framebuffer) rfl
    fun j t _ ht => ?_
  rw [← ht]
  exact fillRow_paints t fb color j (x + w) x

@[simp] theorem fillRect_framebuffer :
    (fillRect s fb x y w h color).framebuffer = s.framebuffer :=
  (fillRect_paints s fb x y w h color).1

theorem fillRect_pixels : (fillRect s fb x y w h color).pixels =
    paint (cells s.framebuffer (filled x y w h)) color s.pixels :=
  (fillRect_paints s fb x y w h color).2

end

/-- The two sums of `fill_rect` stay below 2^32. -/
def Fits (x y w h : BitVec 32) : Prop :=
  x.toNat + w.toNat < 2 ^ 32 ∧ y.toNat + h.toNat < 2 ^ 32

instance (x y w h : BitVec 32) : Decidable (Fits x y w h) := inferInstanceAs (Decidable (_ ∧ _))

theorem filled_of_fits {x y w h : BitVec 32} (hf : Fits x y w h) :
    filled x y w h = box x.toNat y.toNat w.toNat h.toNat := by
  unfold filled box
  rw [BitVec.toNat_add_of_lt hf.1, BitVec.toNat_add_of_lt hf.2]

theorem filled_of_wraps {x y w h : BitVec 32} (hf : ¬ Fits x y w h) : filled x y w h = ∅ := by
  have hx := x.isLt
  have hy := y.isLt
  have hw := w.isLt
  have hh := h.isLt
  ext p
  refine iff_of_false ?_ (Set.notMem_empty p)
  rintro ⟨⟨hxp, hpx⟩, hyp, hpy⟩
  rw [BitVec.toNat_add] at hpx hpy
  apply hf
  constructor <;> omega

def Colored (s : State) (fb : ℕ) (R : Set Point) (color : Pixel) : Prop :=
  ∀ k, k ∈ cells fb R → s.pixels k = color

theorem fills_framebuffer {s : State} {x y w h : BitVec 32} (hf : Fits x y w h) (fb : ℕ)
    (color : Pixel) : Paints s (fillRect s fb x y w h color) s.framebuffer
      (box x.toNat y.toNat w.toNat h.toNat) color := by
  rw [paints_iff, fillRect_pixels, filled_of_fits hf]

theorem fills_wraps_iff {s : State} {fb : ℕ} {x y w h : BitVec 32} {color : Pixel}
    (hf : ¬ Fits x y w h) (R : Set Point) :
    Paints s (fillRect s fb x y w h color) fb R color ↔ Colored s fb R color := by
  have hnone : cells s.framebuffer ∅ = ∅ := by rw [cells, Set.empty_inter, Set.image_empty]
  rw [paints_iff, fillRect_pixels, filled_of_wraps hf, hnone, paint_eq_paint_iff]
  simp only [← Set.bot_eq_empty, bot_symmDiff]
  rfl

theorem fills_other_iff {s : State} {fb : ℕ} {x y w h : BitVec 32} {color : Pixel}
    (hf : Fits x y w h) (hfb : fb ≠ s.framebuffer) :
    Paints s (fillRect s fb x y w h color) fb (box x.toNat y.toNat w.toNat h.toNat) color ↔
      Colored s fb (box x.toNat y.toNat w.toNat h.toNat) color ∧
        Colored s s.framebuffer (box x.toNat y.toNat w.toNat h.toNat) color := by
  have hapart : Disjoint (cells s.framebuffer (box x.toNat y.toNat w.toNat h.toNat))
      (cells fb (box x.toNat y.toNat w.toNat h.toNat)) :=
    Set.disjoint_left.mpr fun k h1 h2 => hfb ((cells_buffer h2).symm.trans (cells_buffer h1))
  rw [paints_iff, fillRect_pixels, filled_of_fits hf, paint_eq_paint_iff,
    hapart.symmDiff_eq_sup]
  constructor
  · intro h
    exact ⟨fun k hk => h k (Or.inr hk), fun k hk => h k (Or.inl hk)⟩
  · rintro ⟨h1, h2⟩ k (hk | hk)
    · exact h2 k hk
    · exact h1 k hk

/-- `fill_rect` fills the rectangle of the buffer it is given exactly when that is the kernel
framebuffer and neither sum wraps, or when there is nothing to see: the rectangle has the
color already, and so has the same rectangle of the framebuffer unless a sum wraps. -/
theorem fill_rect_iff (s : State) (fb : ℕ) (x y w h : BitVec 32) (color : Pixel) :
    Paints s (fillRect s fb x y w h color) fb (box x.toNat y.toNat w.toNat h.toNat) color ↔
      (fb = s.framebuffer ∧ Fits x y w h) ∨
        (Colored s fb (box x.toNat y.toNat w.toNat h.toNat) color ∧
          (Fits x y w h →
            Colored s s.framebuffer (box x.toNat y.toNat w.toNat h.toNat) color)) := by
  by_cases hf : Fits x y w h
  · by_cases hfb : fb = s.framebuffer
    · subst hfb
      exact iff_of_true (fills_framebuffer hf _ color) (Or.inl ⟨rfl, hf⟩)
    · rw [fills_other_iff hf hfb]
      simp only [hfb, hf, false_and, false_or, forall_const]
  · rw [fills_wraps_iff hf]
    simp only [hf, and_false, false_or, false_implies, and_true]

def black : Pixel := ⟨0, 0, 0, 255⟩

def white : Pixel := ⟨255, 255, 255, 255⟩

def whiteScreen : State := ⟨0, fun _ => white⟩

theorem whiteScreen_not_colored {fb x y w h : ℕ}
    (hp : (x, y) ∈ screen) (hw : 0 < w) (hh : 0 < h) :
    ¬ Colored whiteScreen fb (box x y w h) black := by
  intro hc
  have hk : (fb, index (x, y)) ∈ cells fb (box x y w h) :=
    ⟨(x, y), ⟨⟨⟨le_rfl, by omega⟩, le_rfl, by omega⟩, hp⟩, rfl⟩
  have heq : white = black := hc _ hk
  exact absurd heq (by decide)

/-- One black pixel for another buffer goes to the framebuffer; a width of 2^32 - 1 from
column 1 draws nothing. -/
theorem fill_rect_fails :
    ¬ Paints whiteScreen (fillRect whiteScreen 1 0 0 1 1 black) 1 (box 0 0 1 1) black ∧
      ¬ Paints whiteScreen (fillRect whiteScreen 0 1 0 (BitVec.ofNat 32 (2 ^ 32 - 1)) 1 black)
        0 (box 1 0 (2 ^ 32 - 1) 1) black := by
  constructor
  · intro h
    have hc := (fills_other_iff (by decide) (by decide)).mp h
    exact whiteScreen_not_colored (by decide) (by decide) (by decide) hc.1
  · intro h
    have hc := (fills_wraps_iff (by decide) _).mp h
    exact whiteScreen_not_colored (by decide) (by decide) (by decide) hc

/-- Top, bottom, left and right strip together are the frame: the right one takes the corners
on its side, the top and bottom ones take the others. -/
theorem strips_eq_frame {x y w h size : ℕ} (hsize : 0 < size) :
    box x y w size ∪ box x (y + h) w size ∪ box x y size h ∪ box (x + w) y size (h + size) =
      frame x y w h size := by
  ext ⟨n, m⟩
  simp only [Set.mem_union, box, frame, Set.mem_ofPred_eq]
  omega

theorem strokeRect_pixels {s : State} {x y w h size : BitVec 32} {color : Pixel} (fb : ℕ)
    (hx : x.toNat + w.toNat + size.toNat < 2 ^ 32)
    (hy : y.toNat + h.toNat + size.toNat < 2 ^ 32) :
    (strokeRect s fb x y w h color size).pixels =
      paint (cells s.framebuffer
        (box x.toNat y.toNat w.toNat size.toNat ∪
          box x.toNat (y.toNat + h.toNat) w.toNat size.toNat ∪
          box x.toNat y.toNat size.toNat h.toNat ∪
          box (x.toNat + w.toNat) y.toNat size.toNat (h.toNat + size.toNat))) color s.pixels := by
  have hyh : (y + h).toNat = y.toNat + h.toNat := BitVec.toNat_add_of_lt (by omega)
  have hxw : (x + w).toNat = x.toNat + w.toNat := BitVec.toNat_add_of_lt (by omega)
  have hhs : (h + size).toNat = h.toNat + size.toNat := BitVec.toNat_add_of_lt (by omega)
  have htop : Fits x y w size := by constructor <;> omega
  have hbottom : Fits x (y + h) w size := by constructor <;> omega
  have hleft : Fits x y size h := by constructor <;> omega
  have hright : Fits (x + w) y size (h + size) := by constructor <;> omega
  simp only [strokeRect, fillRect_pixels, fillRect_framebuffer, filled_of_fits htop,
    filled_of_fits hbottom, filled_of_fits hleft, filled_of_fits hright, hyh, hxw, hhs,
    paint_paint, ← cells_union]

/-- `draw_rect` with a size draws the outline, clipped to the screen, and nothing else. -/
theorem draw_rect_frame (s : State) (x y w h size : BitVec 32) (color : Pixel)
    (hsize : 1 ≤ size.toNat) (hx : x.toNat + w.toNat + size.toNat < 2 ^ 32)
    (hy : y.toNat + h.toNat + size.toNat < 2 ^ 32) :
    Paints s (drawRect s s.framebuffer x y w h size color) s.framebuffer
      (frame x.toNat y.toNat w.toNat h.toNat size.toNat) color := by
  have hne : size ≠ 0 := by
    rintro rfl
    exact absurd hsize (by decide)
  rw [paints_iff, drawRect, if_neg hne, strokeRect_pixels s.framebuffer hx hy,
    strips_eq_frame hsize]

/-- A thick outline that leaves the screen on the right and below. -/
theorem draw_rect_off_screen :
    Paints whiteScreen (drawRect whiteScreen 0 600 400 100 60 50 black) 0
      (frame 600 400 100 60 50) black :=
  draw_rect_frame whiteScreen 600 400 100 60 50 black (by decide) (by decide) (by decide)

end Drawing
