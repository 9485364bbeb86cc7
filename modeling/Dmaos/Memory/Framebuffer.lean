import Dmaos.Lib.Stepping
import Dmaos.Memory.Validate

/-!
# Presenting a framebuffer

`SYSCALL_PRESENT_FRAMEBUFFER` scales the picture of a program to the screen.  It
walks through the source with 16.16 fixed-point accumulators, all in 32-bit words.
Dimensions are numbers of the program, and only the bytes of their product are
checked.
-/

namespace Dmaos

variable {x y satp n userFb : Nat} {f : Nat → StateT (Nat → Nat) Option Unit} {l : List Nat}
  {b : Buf}

/-- `FB_WIDTH`. -/
def FB_WIDTH : Nat := 1280
/-- `FB_HEIGHT`. -/
def FB_HEIGHT : Nat := 800

/-- The word a program finds at an address. -/
def userWord (b : Buf) (t1 va : Nat) : Nat :=
  Buf.le32 (fun i => userByte b t1 ((va + i) % 2 ^ 32)) 0

/-- The kernel reads it.  It stops where a page is not present. -/
def loadWord (b : Buf) (t1 va : Nat) : Option Nat :=
  if ∀ i ∈ List.range 4, PageHas b t1 [PAGE_V] ((va + i) % 2 ^ 32) then some (userWord b t1 va)
  else none

/-- The step of an accumulator: `size` pixels of the source on `screen` pixels. -/
def stepOf (size screen : Nat) : Nat := (size <<< 16) % 2 ^ 32 / screen

/-- The coordinate in the source that an accumulator stands for. -/
def sourceOf (size fp : Nat) : Nat := if size ≤ fp >>> 16 then size - 1 else fp >>> 16

section Scaler

variable {m : Type → Type} [Monad m]

/-- The loop over `dst_x`, for `n` pixels from `dst` on.  `copy` is given the index of a
pixel on the screen and that in the picture. -/
def scaleRow (width : Nat) (copy : Nat → Nat → m Unit) : Nat → Nat → Nat → m Unit
  | 0, _, _ => pure ()
  | n + 1, dst, fp => do
    copy dst (sourceOf width fp)
    scaleRow width copy n (dst + 1) ((fp + stepOf width FB_WIDTH) % 2 ^ 32)

/-- The loop over `dst_y`, for `n` rows from `dst` on. -/
def scaleRows (width height : Nat) (copy : Nat → Nat → m Unit) : Nat → Nat → Nat → m Unit
  | 0, _, _ => pure ()
  | n + 1, dst, fp => do
    scaleRow width (fun x i => copy (dst * FB_WIDTH + x) (sourceOf height fp * width % 2 ^ 32 + i))
      FB_WIDTH 0 0
    scaleRows width height copy n (dst + 1) ((fp + stepOf height FB_HEIGHT) % 2 ^ 32)

end Scaler

/-- A pixel of the screen is set. -/
def paint (dst : Nat) (pixel : Option Nat) : StateT (Nat → Nat) Option Unit := fun fb =>
  pixel.map fun v => ((), Function.update fb dst v)

/-- `SYSCALL_PRESENT_FRAMEBUFFER`: the answer and the screen.  `n` bounds the turns
of the check of the buffer. -/
def presentFramebuffer (b : Buf) (satp n userFb width height : Nat) (fb : Nat → Nat) :
    Option (Int × (Nat → Nat)) :=
  if width = 0 ∨ height = 0 then some (ERR_INVALID_ARGUMENT, fb)
  else
    match validateUserWriteBuffer b satp n userFb (width * height % 2 ^ 32) with
    | none => none
    | some false => some (ERR_INVALID_ARGUMENT, fb)
    | some true =>
      let pixel := fun i => loadWord b (getActivePageTable satp) ((userFb + 4 * i) % 2 ^ 32)
      (scaleRows width height (fun dst i => paint dst (pixel i)) FB_HEIGHT 0 0 fb).map
        fun r => (0, r.2)

/-! ## Coordinates -/

/-- An accumulator after `k` turns. -/
def accumulated (step k : Nat) : Nat := k * step % 2 ^ 32

/-- `src_x` at column `x`. -/
def srcX (width x : Nat) : Nat := sourceOf width (accumulated (stepOf width FB_WIDTH) x)

/-- `src_y` at row `y`. -/
def srcY (height y : Nat) : Nat := sourceOf height (accumulated (stepOf height FB_HEIGHT) y)

/-- The index in the picture of what is shown at column `x` of row `y`. -/
def source (width height y x : Nat) : Nat := srcY height y * width % 2 ^ 32 + srcX width x

theorem accumulated_zero (step : Nat) : accumulated step 0 = 0 := by
  rw [accumulated, Nat.zero_mul, Nat.zero_mod]

theorem accumulated_succ (step k : Nat) :
    (accumulated step k + step) % 2 ^ 32 = accumulated step (k + 1) := by
  rw [accumulated, accumulated, Nat.mod_add_mod, Nat.succ_mul]

section Loops

variable {m : Type → Type} [Monad m] (width height : Nat) (copy : Nat → Nat → m Unit)

theorem scaleRow_eq (n k : Nat) :
    scaleRow width copy n k (accumulated (stepOf width FB_WIDTH) k) =
      (List.range' k n).forM fun x => copy x (srcX width x) := by
  induction n generalizing k with
  | zero => rfl
  | succ n ih =>
      rw [scaleRow, accumulated_succ, ih]
      rfl

theorem scaleRows_from (n k : Nat) :
    scaleRows width height copy n k (accumulated (stepOf height FB_HEIGHT) k) =
      (List.range' k n).forM fun y => (List.range' 0 FB_WIDTH).forM fun x =>
        copy (y * FB_WIDTH + x) (source width height y x) := by
  induction n generalizing k with
  | zero => rfl
  | succ n ih =>
      have hrow := scaleRow_eq width (fun x i => copy (k * FB_WIDTH + x)
        (srcY height k * width % 2 ^ 32 + i)) FB_WIDTH 0
      rw [accumulated_zero] at hrow
      rw [scaleRows, accumulated_succ, ih]
      exact congrArg (· >>= _) hrow

/-- The loops copy each pixel from the place its coordinates say. -/
theorem scaleRows_eq :
    scaleRows width height copy FB_HEIGHT 0 0 =
      (List.range' 0 FB_HEIGHT).forM fun y => (List.range' 0 FB_WIDTH).forM fun x =>
        copy (y * FB_WIDTH + x) (source width height y x) := by
  have h := scaleRows_from width height copy FB_HEIGHT 0
  rwa [accumulated_zero] at h

end Loops

/-! ## Arithmetic -/

/-- None of the numbers of the scaler is too large for a word. -/
structure NoWrap (width height : Nat) : Prop where
  product : width * height < 2 ^ 32
  shift_x : width * 2 ^ 16 < 2 ^ 32
  shift_y : height * 2 ^ 16 < 2 ^ 32
  /-- The accumulators after each turn. -/
  sum_x : ∀ x < FB_WIDTH, (x + 1) * (width * 2 ^ 16 / FB_WIDTH) < 2 ^ 32
  sum_y : ∀ y < FB_HEIGHT, (y + 1) * (height * 2 ^ 16 / FB_HEIGHT) < 2 ^ 32
  line : ∀ y < FB_HEIGHT, srcY height y * width < 2 ^ 32
  index : ∀ x < FB_WIDTH, ∀ y < FB_HEIGHT, srcY height y * width + srcX width x < 2 ^ 32

/-- The coordinates are those of the exact scaling, or one less, and in the picture. -/
structure Scaled (width height : Nat) : Prop where
  near_x : ∀ x < FB_WIDTH, srcX width x ≤ x * width / FB_WIDTH ∧
    x * width / FB_WIDTH ≤ srcX width x + 1
  near_y : ∀ y < FB_HEIGHT, srcY height y ≤ y * height / FB_HEIGHT ∧
    y * height / FB_HEIGHT ≤ srcY height y + 1
  in_x : ∀ x < FB_WIDTH, srcX width x < width
  in_y : ∀ y < FB_HEIGHT, srcY height y < height
  mono_x : ∀ x x', x ≤ x' → x' < FB_WIDTH → srcX width x ≤ srcX width x'
  mono_y : ∀ y y', y ≤ y' → y' < FB_HEIGHT → srcY height y ≤ srcY height y'
  index : ∀ x < FB_WIDTH, ∀ y < FB_HEIGHT, srcY height y * width + srcX width x < width * height

section Arithmetic

open Stepping

variable {size screen k : Nat}

/-- A source coordinate.  Only the low half of the size has got into the step. -/
theorem sourceOf_low (hpos : 0 < size) (hscreen : 0 < screen) (hk : k < screen) :
    sourceOf size (accumulated (stepOf size screen) k)
      = coordinate (size % 2 ^ 16) (2 ^ 16) screen k := by
  have hstep : stepOf size screen = size % 2 ^ 16 * 2 ^ 16 / screen := by
    rw [stepOf, Nat.shiftLeft_eq]
    exact congrArg (· / screen) (by omega)
  have hacc : accumulated (stepOf size screen) k = k * (size % 2 ^ 16 * 2 ^ 16 / screen) := by
    rw [accumulated, hstep]
    refine Nat.mod_eq_of_lt (Nat.lt_of_le_of_lt (accumulator_le (Nat.le_of_lt hk)) ?_)
    omega
  have hlt : coordinate (size % 2 ^ 16) (2 ^ 16) screen k < size := by
    cases Nat.eq_zero_or_pos (size % 2 ^ 16) with
    | inl h0 =>
        rw [h0, coordinate, Nat.zero_mul, Nat.zero_div, Nat.mul_zero, Nat.zero_div]
        exact hpos
    | inr hlow =>
        exact Nat.lt_of_lt_of_le (coordinate_lt (by decide) hscreen hlow hk) (Nat.mod_le _ _)
  rw [sourceOf, hacc, Nat.shiftRight_eq_div_pow]
  exact if_neg (Nat.not_le_of_lt hlt)

/-- A source coordinate, as long as the size fits in the integer part. -/
theorem sourceOf_eq (hpos : 0 < size) (hsize : size < 2 ^ 16) (hscreen : 0 < screen)
    (hk : k < screen) :
    sourceOf size (accumulated (stepOf size screen) k) = coordinate size (2 ^ 16) screen k := by
  rw [sourceOf_low hpos hscreen hk, Nat.mod_eq_of_lt hsize]

/-- The index of a pixel of the picture. -/
theorem index_lt {w h : Nat} (hx : x < w) (hy : y < h) : y * w + x < w * h :=
  calc y * w + x < y * w + w := Nat.add_lt_add_left hx _
    _ = (y + 1) * w := (Nat.succ_mul y w).symm
    _ ≤ h * w := Nat.mul_le_mul_right w hy
    _ = w * h := Nat.mul_comm h w

variable {width height : Nat}

/-- Dimensions below `2 ^ 16` are scaled as they should be. -/
theorem Scaled.of_small (hw : 0 < width) (hh : 0 < height) (hw' : width < 2 ^ 16)
    (hh' : height < 2 ^ 16) : Scaled width height := by
  have hX : ∀ x < FB_WIDTH, srcX width x = coordinate width (2 ^ 16) FB_WIDTH x :=
    fun x hx => sourceOf_eq hw hw' (by decide) hx
  have hY : ∀ y < FB_HEIGHT, srcY height y = coordinate height (2 ^ 16) FB_HEIGHT y :=
    fun y hy => sourceOf_eq hh hh' (by decide) hy
  have hinX : ∀ x < FB_WIDTH, srcX width x < width := fun x hx => by
    rw [hX x hx]
    exact coordinate_lt (by decide) (by decide) hw hx
  have hinY : ∀ y < FB_HEIGHT, srcY height y < height := fun y hy => by
    rw [hY y hy]
    exact coordinate_lt (by decide) (by decide) hh hy
  refine ⟨fun x hx => ?_, fun y hy => ?_, hinX, hinY, fun x x' hle hx' => ?_,
    fun y y' hle hy' => ?_, fun x hx y hy => index_lt (hinX x hx) (hinY y hy)⟩
  · have hsmall : x ≤ 2 ^ 16 := Nat.le_of_lt (Nat.lt_trans hx (by decide))
    rw [hX x hx]
    exact ⟨coordinate_le (by decide) (by decide),
      le_coordinate_add_one (by decide) (by decide) hsmall⟩
  · have hsmall : y ≤ 2 ^ 16 := Nat.le_of_lt (Nat.lt_trans hy (by decide))
    rw [hY y hy]
    exact ⟨coordinate_le (by decide) (by decide),
      le_coordinate_add_one (by decide) (by decide) hsmall⟩
  · rw [hX x (Nat.lt_of_le_of_lt hle hx'), hX x' hx']
    exact coordinate_mono hle
  · rw [hY y (Nat.lt_of_le_of_lt hle hy'), hY y' hy']
    exact coordinate_mono hle

theorem NoWrap.of_small (hw : 0 < width) (hh : 0 < height) (hw' : width < 2 ^ 16)
    (hh' : height < 2 ^ 16) : NoWrap width height := by
  have hs := Scaled.of_small hw hh hw' hh'
  have hprod : width * height < 2 ^ 32 :=
    calc width * height ≤ (2 ^ 16 - 1) * (2 ^ 16 - 1) := Nat.mul_le_mul (by omega) (by omega)
      _ < 2 ^ 32 := by decide
  have hindex : ∀ x < FB_WIDTH, ∀ y < FB_HEIGHT, srcY height y * width + srcX width x < 2 ^ 32 :=
    fun x hx y hy => Nat.lt_trans (hs.index x hx y hy) hprod
  refine ⟨hprod, by omega, by omega, fun x hx => ?_, fun y hy => ?_, fun y hy => ?_, hindex⟩
  · exact Nat.lt_of_le_of_lt (accumulator_le hx) (by omega)
  · exact Nat.lt_of_le_of_lt (accumulator_le hy) (by omega)
  · exact Nat.lt_of_le_of_lt (Nat.le_add_right _ _) (hindex 0 (by decide) y hy)

end Arithmetic

/-! ## The screen -/

/-- `x` sets the pixels in `D` to those of `shown`, and no others. -/
def Paints (shown : Nat → Option Nat) (D : Nat → Prop) (x : StateT (Nat → Nat) Option Unit) :
    Prop :=
  ∀ fb fb' : Nat → Nat, x fb = some ((), fb') →
    ∀ j, (D j → shown j = some (fb' j)) ∧ (¬ D j → fb' j = fb j)

section Screen

variable {shown : Nat → Option Nat} {width height : Nat}

theorem Paints.paint {d : Nat} {o : Option Nat} (ho : shown d = o) :
    Paints shown (· = d) (paint d o) := by
  intro fb fb' h j
  obtain ⟨v, hv, he⟩ := Option.map_eq_some_iff.mp h
  cases he
  refine ⟨?_, fun hj => Function.update_of_ne hj _ _⟩
  rintro rfl
  rw [ho, hv, Function.update_self]

theorem Paints.forM {D : Nat → Nat → Prop} (hf : ∀ i ∈ l, Paints shown (D i) (f i)) :
    Paints shown (fun j => ∃ i ∈ l, D i j) (l.forM f) := by
  induction l with
  | nil =>
      intro fb fb' h j
      cases h
      exact ⟨fun ⟨_, hi, _⟩ => absurd hi List.not_mem_nil, fun _ => rfl⟩
  | cons i l ih =>
      intro fb fb' h j
      obtain ⟨⟨⟨⟩, fb₁⟩, h₁, h₂⟩ := Option.bind_eq_some_iff.mp h
      have hi := hf i List.mem_cons_self _ _ h₁ j
      have hl := ih (fun i hi => hf i (List.mem_cons_of_mem _ hi)) _ _ h₂ j
      constructor
      · rintro ⟨k, hk, hj⟩
        by_cases hin : ∃ i ∈ l, D i j
        · exact hl.1 hin
        · -- The pixel is not set again.
          rw [hl.2 hin]
          rcases List.mem_cons.mp hk with rfl | hk
          · exact hi.1 hj
          · exact absurd ⟨k, hk, hj⟩ hin
      · intro hn
        rw [hl.2 fun ⟨k, hk, hj⟩ => hn ⟨k, List.mem_cons_of_mem _ hk, hj⟩]
        exact hi.2 fun hj => hn ⟨i, List.mem_cons_self, hj⟩

theorem forM_returns (hf : ∀ i ∈ l, ∀ fb, ∃ fb', f i fb = some ((), fb')) (fb : Nat → Nat) :
    ∃ fb', l.forM f fb = some ((), fb') := by
  induction l generalizing fb with
  | nil => exact ⟨fb, rfl⟩
  | cons i l ih =>
      obtain ⟨fb₁, h₁⟩ := hf i List.mem_cons_self fb
      obtain ⟨fb₂, h₂⟩ := ih (fun i hi => hf i (List.mem_cons_of_mem _ hi)) fb₁
      exact ⟨fb₂, Option.bind_eq_some_iff.mpr ⟨_, h₁, h₂⟩⟩

variable {fb fb' : Nat → Nat}

/-- The call passes its checks. -/
structure Presentable (b : Buf) (satp n userFb width height : Nat) : Prop where
  width_pos : 0 < width
  height_pos : 0 < height
  buffer : validateUserWriteBuffer b satp n userFb (width * height % 2 ^ 32) = some true

/-- The pixel of the picture that is shown at column `x` of row `y`. -/
def shownAt (b : Buf) (satp userFb width height y x : Nat) : Option Nat :=
  loadWord b (getActivePageTable satp) ((userFb + 4 * source width height y x) % 2 ^ 32)

theorem Presentable.run (h : Presentable b satp n userFb width height) :
    presentFramebuffer b satp n userFb width height fb =
      (((List.range' 0 FB_HEIGHT).forM fun y => (List.range' 0 FB_WIDTH).forM fun x =>
        paint (y * FB_WIDTH + x) (shownAt b satp userFb width height y x)) fb).map
          fun r => (0, r.2) := by
  have hw := h.width_pos
  have hh := h.height_pos
  rw [presentFramebuffer, if_neg (by omega), h.buffer]
  simp only [scaleRows_eq]
  rfl

/-- A call that does not refuse the picture. -/
theorem Presentable.of_run
    (h : presentFramebuffer b satp n userFb width height fb = some (0, fb')) :
    Presentable b satp n userFb width height := by
  rw [presentFramebuffer] at h
  split at h
  case isTrue => simp [ERR_INVALID_ARGUMENT] at h
  case isFalse hpos =>
    split at h
    · cases h
    · simp [ERR_INVALID_ARGUMENT] at h
    next hval => exact ⟨by omega, by omega, hval⟩

/-- A picture all of whose pixels are in memory is shown. -/
theorem Presentable.returns (h : Presentable b satp n userFb width height)
    (hmem : ∀ x < FB_WIDTH, ∀ y < FB_HEIGHT,
      (shownAt b satp userFb width height y x).isSome) (fb : Nat → Nat) :
    ∃ fb', presentFramebuffer b satp n userFb width height fb = some (0, fb') := by
  have hpaint : ∀ y ∈ List.range' 0 FB_HEIGHT, ∀ x ∈ List.range' 0 FB_WIDTH, ∀ fb, ∃ fb',
      paint (y * FB_WIDTH + x) (shownAt b satp userFb width height y x) fb = some ((), fb') := by
    intro y hy x hx fb
    obtain ⟨v, hv⟩ := Option.isSome_iff_exists.mp (hmem x (by simpa using hx) y (by simpa using hy))
    rw [hv]
    exact ⟨_, rfl⟩
  obtain ⟨fb', hrun⟩ := forM_returns (fun y hy => forM_returns (hpaint y hy)) fb
  exact ⟨fb', by rw [h.run, hrun]; rfl⟩

/-- What the screen shows after the call: at column `x` of row `y` the pixel of the
picture with coordinates `srcX` and `srcY`. -/
theorem presentFramebuffer_pixel
    (h : presentFramebuffer b satp n userFb width height fb = some (0, fb')) (hx : x < FB_WIDTH)
    (hy : y < FB_HEIGHT) :
    loadWord b (getActivePageTable satp)
      ((userFb + 4 * (srcY height y * width % 2 ^ 32 + srcX width x)) % 2 ^ 32)
        = some (fb' (y * FB_WIDTH + x)) := by
  rw [(Presentable.of_run h).run] at h
  obtain ⟨⟨⟨⟩, fb₁⟩, hrun, he⟩ := Option.map_eq_some_iff.mp h
  cases he
  -- Row and column can be told from the index of a pixel.
  have hindex : ∀ {y x : Nat}, x < FB_WIDTH →
      (y * FB_WIDTH + x) / FB_WIDTH = y ∧ (y * FB_WIDTH + x) % FB_WIDTH = x := by
    intro y x hx
    simp only [FB_WIDTH] at *
    omega
  have hpaint : ∀ y, ∀ x ∈ List.range' 0 FB_WIDTH,
      Paints (fun j => shownAt b satp userFb width height (j / FB_WIDTH) (j % FB_WIDTH))
        (· = y * FB_WIDTH + x)
        (paint (y * FB_WIDTH + x) (shownAt b satp userFb width height y x)) := by
    intro y x hx
    refine Paints.paint ?_
    simp only [hindex (show x < FB_WIDTH by simpa using hx)]
  have hset := (Paints.forM (fun y (_ : y ∈ List.range' 0 FB_HEIGHT) => Paints.forM (hpaint y))
    _ _ hrun (y * FB_WIDTH + x)).1 ⟨y, by simpa using hy, x, by simpa using hx, rfl⟩
  simp only [hindex hx] at hset
  exact hset

/-- A picture of 32 by 32, in one page. -/
theorem presentable_small : Presentable onePage 0x80300 1 0x1000000 32 32 :=
  ⟨by decide, by decide, by decide +kernel⟩

/-- The corner of the screen shows the corner of the picture. -/
theorem presentFramebuffer_pixel_corner : ∃ fb',
    presentFramebuffer onePage 0x80300 1 0x1000000 32 32 (fun _ => 0) = some (0, fb') ∧
      loadWord onePage (getActivePageTable 0x80300)
        ((0x1000000 + 4 * (srcY 32 799 * 32 % 2 ^ 32 + srcX 32 1279)) % 2 ^ 32)
          = some (fb' (799 * FB_WIDTH + 1279)) := by
  have hpage : PageHas onePage (getActivePageTable 0x80300) [PAGE_V] 0x1000000 := by decide +kernel
  have hs : Scaled 32 32 := .of_small (by decide) (by decide) (by decide) (by decide)
  -- All of the picture is in the page.
  have hmem : ∀ x < FB_WIDTH, ∀ y < FB_HEIGHT,
      (shownAt onePage 0x80300 0x1000000 32 32 y x).isSome := by
    intro x hx y hy
    have hi := hs.index x hx y hy
    rw [shownAt, loadWord, if_pos]
    · rfl
    · intro i hlt
      rw [List.mem_range] at hlt
      refine (PageHas.congr ?_).mp hpage
      rw [PAGE_SIZE, source]
      omega
  obtain ⟨fb', h⟩ := presentable_small.returns hmem fun _ => 0
  exact ⟨fb', h, presentFramebuffer_pixel h (by decide) (by decide)⟩

/-- For the dimensions the call accepts, the arithmetic of the scaler is right exactly
when they fit in 16 bits. -/
theorem presentFramebuffer_scales_iff (h : Presentable b satp n userFb width height) :
    (NoWrap width height ∧ Scaled width height) ↔ width < 2 ^ 16 ∧ height < 2 ^ 16 := by
  constructor
  · rintro ⟨hno, -⟩
    have hx := hno.shift_x
    have hy := hno.shift_y
    omega
  · rintro ⟨hw', hh'⟩
    exact ⟨.of_small h.width_pos h.height_pos hw' hh', .of_small h.width_pos h.height_pos hw' hh'⟩

theorem presentFramebuffer_scales_small : NoWrap 32 32 ∧ Scaled 32 32 :=
  (presentFramebuffer_scales_iff presentable_small).mpr ⟨by decide, by decide⟩

/-- A picture of 65536 by 65536 is accepted and shown: the number of its bytes wraps to
zero.  Its width wraps to zero as well when it is shifted, and all of the screen shows
the first pixel, the only one that needs to be in memory. -/
theorem presentFramebuffer_wraps :
    Presentable onePage 0x80300 0 0x1000000 65536 65536 ∧
      (∃ fb', presentFramebuffer onePage 0x80300 0 0x1000000 65536 65536 (fun _ => 0)
        = some (0, fb')) ∧
      srcX 65536 1279 = 0 ∧ 1279 * 65536 / FB_WIDTH = 65484 ∧
      ¬ (NoWrap 65536 65536 ∧ Scaled 65536 65536) := by
  have hp : Presentable onePage 0x80300 0 0x1000000 65536 65536 :=
    ⟨by decide, by decide, by decide +kernel⟩
  refine ⟨hp, hp.returns (fun x _ y _ => ?_) _, by decide, by decide, ?_⟩
  · have h0 : source 65536 65536 y x = 0 := by
      simp [source, srcX, srcY, sourceOf, stepOf, accumulated]
    rw [shownAt, h0]
    decide +kernel
  · rintro ⟨-, hs⟩
    exact absurd (hs.near_x 1279 (by decide)).2 (by decide)

end Screen

end Dmaos
