import OppoOS.Drawing
import OppoOS.TriangleWave

/-!
# The bouncing box

`clear_screen` and the loop of `bounce` of `drivers/virtio/virtio_gpu.c`. Its delay and `flush`
change neither the variables nor the framebuffer.
-/
namespace Animation

open Painting Drawing TriangleWave Function

def w : BitVec 32 := 64
def h : BitVec 32 := 64

/-- The variables of `bounce`, and the pixels. -/
structure Scene where
  x : BitVec 32
  y : BitVec 32
  isLeft : Bool
  isDown : Bool
  state : State

def clearScreen (s : State) : State :=
  forUp (fun i s => { s with pixels := update s.pixels (s.framebuffer, i.toNat) white })
    (0 : BitVec 32) (BitVec.ofNat 32 (gpuDefaultHeight * gpuDefaultWidth)) s

def initial (s : State) : Scene := ⟨0, 0, false, true, s⟩

def nextFrame (b : Scene) : Scene :=
  let s := clearScreen b.state
  let x := if b.isLeft then b.x - 1 else b.x + 1
  let y := if b.isDown then b.y + 1 else b.y - 1
  let isDown := if y = 0 ∨ y = 480 - h then !b.isDown else b.isDown
  let isLeft := if x = 0 ∨ x = 640 - w then !b.isLeft else b.isLeft
  ⟨x, y, isLeft, isDown, drawRect s s.framebuffer x y w h 0 black⟩

def frames (s : State) (n : ℕ) : Scene := nextFrame^[n] (initial s)

def whole (fb : ℕ) : Set (ℕ × ℕ) := cells fb Set.univ

theorem clearScreen_paints (s : State) : (clearScreen s).framebuffer = s.framebuffer ∧
    (clearScreen s).pixels = paint (whole s.framebuffer) white s.pixels := by
  have hlo : (0 : BitVec 32).toNat = 0 := rfl
  have hhi : (BitVec.ofNat 32 (gpuDefaultHeight * gpuDefaultWidth)).toNat = 307200 := rfl
  have hwhole : whole s.framebuffer = between (fun n => {(s.framebuffer, n)}) (0 : BitVec 32).toNat
      (BitVec.ofNat 32 (gpuDefaultHeight * gpuDefaultWidth)).toNat := by
    ext k
    rw [hlo, hhi]
    simp only [whole, cells, Set.univ_inter, Set.mem_image, between, Set.mem_singleton_iff,
      Set.mem_ofPred_eq, gpuDefaultHeight, gpuDefaultWidth, screen, index]
    constructor
    · rintro ⟨p, ⟨hx, hy⟩, rfl⟩
      exact ⟨_, by omega, rfl⟩
    · rintro ⟨n, hn, rfl⟩
      refine ⟨(n % 640, n / 640), by dsimp only; omega, ?_⟩
      dsimp only
      rw [Nat.div_add_mod']
  rw [hwhole]
  refine forUp_paint State.pixels _ white (fun t => t.framebuffer = s.framebuffer) rfl
    fun j t _ ht => ⟨ht, ?_⟩
  dsimp only
  rw [paint_singleton, ht]

theorem paint_over {κ ν : Type*} {R S : Set κ} (hRS : R ⊆ S) (u v : ν) (f : κ → ν) :
    paint S v (paint R u f) = paint S v f := by
  funext k
  by_cases hS : k ∈ S
  · rw [paint_inside hS, paint_inside hS]
  · rw [paint_outside hS, paint_outside hS, paint_outside fun hR => hS (hRS hR)]

theorem cells_subset (fb : ℕ) (R : Set Point) : cells fb R ⊆ whole fb :=
  Set.image_mono (Set.inter_subset_inter_left _ (Set.subset_univ R))

noncomputable def picture (s : State) (x y : ℕ) : State :=
  { s with
    pixels := paint (cells s.framebuffer (box x y 64 64)) black
      (paint (whole s.framebuffer) white s.pixels) }

theorem draw_box {x y : ℕ} (hx : x ≤ 576) (hy : y ≤ 416) (s : State) :
    drawRect (clearScreen s) (clearScreen s).framebuffer (BitVec.ofNat 32 x) (BitVec.ofNat 32 y)
      w h 0 black = picture s x y := by
  obtain ⟨hfb, hpixels⟩ := clearScreen_paints s
  have hxv : (BitVec.ofNat 32 x).toNat = x := Nat.mod_eq_of_lt (by omega)
  have hyv : (BitVec.ofNat 32 y).toNat = y := Nat.mod_eq_of_lt (by omega)
  have hw : w.toNat = 64 := rfl
  have hh : h.toNat = 64 := rfl
  have hfits : Fits (BitVec.ofNat 32 x) (BitVec.ofNat 32 y) w h := by
    unfold Fits
    rw [hxv, hyv, hw, hh]
    omega
  have hdrawn := fillRect_paints (clearScreen s) (clearScreen s).framebuffer (BitVec.ofNat 32 x)
    (BitVec.ofNat 32 y) w h black
  rw [filled_of_fits hfits, hxv, hyv, hw, hh, hfb, hpixels] at hdrawn
  rw [drawRect, if_pos rfl, hfb]
  generalize fillRect (clearScreen s) s.framebuffer _ _ w h black = t at hdrawn
  obtain ⟨fb, pixels⟩ := t
  obtain ⟨rfl, rfl⟩ := hdrawn
  rfl

theorem picture_picture (s : State) (x y x' y' : ℕ) :
    picture (picture s x y) x' y' = picture s x' y' := by
  unfold picture
  dsimp only
  rw [paint_over (cells_subset _ _), paint_over (Set.Subset.refl _)]

theorem axis_step (bound : ℕ) (hb : 0 < bound) (hlt : bound < 2 ^ 32) (n : ℕ) :
    (if (wave bound n).up then BitVec.ofNat 32 (wave bound n).pos + 1
      else BitVec.ofNat 32 (wave bound n).pos - 1) = BitVec.ofNat 32 (wave bound (n + 1)).pos ∧
    (wave bound (n + 1)).up =
      if BitVec.ofNat 32 (wave bound (n + 1)).pos = 0 ∨
        BitVec.ofNat 32 (wave bound (n + 1)).pos = BitVec.ofNat 32 bound
      then !(wave bound n).up else (wave bound n).up := by
  have hroom := wave_room hb n
  have hle := wave_le bound (n + 1)
  have hsame : ∀ {a b : ℕ}, a ≤ bound → b ≤ bound →
      (BitVec.ofNat 32 a = BitVec.ofNat 32 b ↔ a = b) := by
    intro a b ha hb
    rw [← BitVec.toNat_inj, BitVec.toNat_ofNat, BitVec.toNat_ofNat, Nat.mod_eq_of_lt (by omega),
      Nat.mod_eq_of_lt (by omega)]
  have hzero : BitVec.ofNat 32 (wave bound (n + 1)).pos = 0 ↔ (wave bound (n + 1)).pos = 0 :=
    hsame hle (Nat.zero_le bound)
  simp only [hzero, hsame hle le_rfl]
  rw [wave_succ hb]
  generalize wave bound n = r at hroom
  refine ⟨?_, rfl⟩
  unfold bounce
  cases hup : r.up with
  | true => exact (BitVec.ofNat_add _ _).symm
  | false =>
    rw [hup, if_neg Bool.false_ne_true] at hroom
    obtain ⟨q, hq⟩ := Nat.exists_eq_succ_of_ne_zero (Nat.ne_of_gt hroom)
    simp only [Bool.false_eq_true, if_false, hq, Nat.succ_eq_add_one, Nat.add_sub_cancel,
      BitVec.ofNat_add]
    exact BitVec.add_sub_cancel _ _

def sceneAt (n : ℕ) (s : State) : Scene :=
  ⟨BitVec.ofNat 32 (wave 576 n).pos, BitVec.ofNat 32 (wave 416 n).pos, !(wave 576 n).up,
    (wave 416 n).up, s⟩

theorem nextFrame_sceneAt (n : ℕ) (s : State) : nextFrame (sceneAt n s) =
    sceneAt (n + 1) (picture s (wave 576 (n + 1)).pos (wave 416 (n + 1)).pos) := by
  obtain ⟨hx, hleft⟩ := axis_step 576 (by decide) (by decide) n
  obtain ⟨hy, hdown⟩ := axis_step 416 (by decide) (by decide) n
  have hdraw := draw_box (wave_le 576 (n + 1)) (wave_le 416 (n + 1)) s
  have hright : (640 : BitVec 32) - w = BitVec.ofNat 32 576 := rfl
  have hbottom : (480 : BitVec 32) - h = BitVec.ofNat 32 416 := rfl
  cases hl : (wave 576 n).up <;> cases hd : (wave 416 n).up
  all_goals
    rw [hl] at hx hleft
    rw [hd] at hy hdown
    simp only [Bool.not_true, Bool.not_false, if_true, Bool.false_eq_true, if_false] at hx hy hleft hdown
    simp only [nextFrame, sceneAt, hl, hd, Bool.not_true, Bool.not_false, if_true,
      Bool.false_eq_true, if_false, hx, hy, hright, hbottom, hleft, hdown, hdraw, Scene.mk.injEq,
      true_and, and_true]
    split <;> rfl

theorem frames_succ (s : State) (n : ℕ) : frames s (n + 1) =
    sceneAt (n + 1) (picture s (wave 576 (n + 1)).pos (wave 416 (n + 1)).pos) := by
  induction n with
  | zero =>
    have hinitial : initial s = sceneAt 0 s := by
      rw [sceneAt, wave_zero (by decide), wave_zero (by decide)]
      rfl
    rw [frames, iterate_succ_apply', iterate_zero_apply, hinitial, nextFrame_sceneAt]
  | succ n ih =>
    rw [frames, iterate_succ_apply']
    change nextFrame (frames s (n + 1)) = _
    rw [ih, nextFrame_sceneAt, picture_picture]

/-- The whole box is on the screen, all around it is white, and only the framebuffer has
changed since the first frame. -/
structure Shows (first t : State) (x y : ℕ) : Prop where
  framebuffer : t.framebuffer = first.framebuffer
  on_screen : box x y 64 64 ⊆ screen
  inside : ∀ p ∈ box x y 64 64, t.pixels (t.framebuffer, index p) = black
  outside : ∀ p ∈ screen, p ∉ box x y 64 64 → t.pixels (t.framebuffer, index p) = white
  others : ∀ k, k ∉ whole first.framebuffer → t.pixels k = first.pixels k

theorem index_injective {p q : Point} (hp : p ∈ screen) (hq : q ∈ screen)
    (h : index p = index q) : p = q := by
  have h1 := hp.1
  have h2 := hq.1
  simp only [index, gpuDefaultWidth] at h h1 h2
  exact Prod.ext (by omega) (by omega)

theorem picture_shows (s : State) {x y : ℕ} (hx : x ≤ 576) (hy : y ≤ 416) :
    Shows s (picture s x y) x y := by
  have hon : box x y 64 64 ⊆ screen := by
    rintro p ⟨⟨-, h1⟩, -, h2⟩
    refine ⟨?_, ?_⟩
    · simp only [gpuDefaultWidth]
      omega
    · simp only [gpuDefaultHeight]
      omega
  constructor
  · rfl
  · exact hon
  · exact fun p hp => paint_inside ⟨p, ⟨hp, hon hp⟩, rfl⟩
  · intro p hp hout
    have hcell : (s.framebuffer, index p) ∉ cells s.framebuffer (box x y 64 64) := by
      rintro ⟨q, ⟨hq, hqs⟩, he⟩
      rw [index_injective hqs hp (congrArg Prod.snd he)] at hq
      exact hout hq
    exact (paint_outside hcell).trans (paint_inside ⟨p, ⟨Set.mem_univ p, hp⟩, rfl⟩)
  · intro k hk
    exact (paint_outside fun hc => hk (cells_subset _ _ hc)).trans (paint_outside hk)

/-- From the first frame on: the box is where two triangle waves put it, as a whole on the
screen, with no trace of the frames before, and after 14976 frames everything repeats. -/
theorem bounce_shows (s : State) (n : ℕ) :
    (frames s (n + 1)).x.toNat = (wave 576 (n + 1)).pos ∧
    (frames s (n + 1)).y.toNat = (wave 416 (n + 1)).pos ∧
    Shows s (frames s (n + 1)).state (wave 576 (n + 1)).pos (wave 416 (n + 1)).pos ∧
    frames s (n + 1 + 14976) = frames s (n + 1) := by
  have hx := wave_le 576 (n + 1)
  have hy := wave_le 416 (n + 1)
  have hxp : wave 576 (n + 1 + 14976) = wave 576 (n + 1) := wave_add 576 (n + 1) 13
  have hyp : wave 416 (n + 1 + 14976) = wave 416 (n + 1) := wave_add 416 (n + 1) 18
  have hlater := frames_succ s (n + 14976)
  rw [Nat.add_right_comm n 14976 1] at hlater
  rw [hlater, frames_succ]
  refine ⟨?_, ?_, picture_shows s hx hy, ?_⟩
  · exact Nat.mod_eq_of_lt (by omega)
  · exact Nat.mod_eq_of_lt (by omega)
  · rw [sceneAt, sceneAt, hxp, hyp]

end Animation
