import Gegl.Lohalo.Refinement
import Gegl.Lohalo.Sampler

/-!
# The seams of the LBB-Nohalo reconstruction

The anchor changes where the offset `x_0` is `±1/2` and the sign where it is `0`; on both sides
of such a line the sampler runs LBB on a different patch. On the line `lbb` reads only the two
corners on it, and the windows on both sides hold the same values there, so the two agree.
-/

namespace Gegl
namespace Lohalo

open Set

variable {K : Type} [LinearOrderedField K]

section Edges

variable {P P' : Patch K}

/-- At `X = 0`, `lbb` reads the corners at `dos_two` and `tre_two` only. -/
theorem lbb_left_congr (Y : K) (value00 : P.dosTwo = P'.dosTwo) (value01 : P.treTwo = P'.treTwo)
    (dzdy00 : P.corner00.dzdy = P'.corner00.dzdy) (dzdy01 : P.corner01.dzdy = P'.corner01.dzdy) :
    lbb (lbbCoefficients 0 Y) P = lbb (lbbCoefficients 0 Y) P' := by
  simp only [lbb, lbbCoefficients, value00, value01, dzdy00, dzdy01, mul_zero, zero_mul, add_zero,
    zero_add]

/-- At `X = 1`, `lbb` reads the corners at `dos_thr` and `tre_thr` only. -/
theorem lbb_right_congr (Y : K) (value10 : P.dosThr = P'.dosThr) (value11 : P.treThr = P'.treThr)
    (dzdy10 : P.corner10.dzdy = P'.corner10.dzdy) (dzdy11 : P.corner11.dzdy = P'.corner11.dzdy) :
    lbb (lbbCoefficients 1 Y) P = lbb (lbbCoefficients 1 Y) P' := by
  simp only [lbb, lbbCoefficients, value10, value11, dzdy10, dzdy11, add_neg_cancel, mul_zero,
    zero_mul, add_zero, zero_add]

/-- At `Y = 0`, `lbb` reads the corners at `dos_two` and `dos_thr` only. -/
theorem lbb_top_congr (X : K) (value00 : P.dosTwo = P'.dosTwo) (value10 : P.dosThr = P'.dosThr)
    (dzdx00 : P.corner00.dzdx = P'.corner00.dzdx) (dzdx10 : P.corner10.dzdx = P'.corner10.dzdx) :
    lbb (lbbCoefficients X 0) P = lbb (lbbCoefficients X 0) P' := by
  simp only [lbb, lbbCoefficients, value00, value10, dzdx00, dzdx10, mul_zero, zero_mul, add_zero,
    zero_add]

/-- At `Y = 1`, `lbb` reads the corners at `tre_two` and `tre_thr` only. -/
theorem lbb_bottom_congr (X : K) (value01 : P.treTwo = P'.treTwo) (value11 : P.treThr = P'.treThr)
    (dzdx01 : P.corner01.dzdx = P'.corner01.dzdx) (dzdx11 : P.corner11.dzdx = P'.corner11.dzdx) :
    lbb (lbbCoefficients X 1) P = lbb (lbbCoefficients X 1) P' := by
  simp only [lbb, lbbCoefficients, value01, value11, dzdx01, dzdx11, add_neg_cancel, mul_zero,
    zero_mul, add_zero, zero_add]

end Edges

/-- A clamped derivative depends on the corner's value, its block range and the raw derivative. -/
theorem Corner.dzdy_congr {c c' : Corner K} (value : c.value = c'.value) (low : c.low = c'.low)
    (high : c.high = c'.high) (dzdyi : c.dzdyi = c'.dzdyi) : c.dzdy = c'.dzdy := by
  simp only [Corner.dzdy, Corner.slopeLimit, Corner.u, Corner.v, value, low, high, dzdyi]

theorem Corner.dzdx_congr {c c' : Corner K} (value : c.value = c'.value) (low : c.low = c'.low)
    (high : c.high = c'.high) (dzdxi : c.dzdxi = c'.dzdxi) : c.dzdx = c'.dzdx := by
  simp only [Corner.dzdx, Corner.slopeLimit, Corner.u, Corner.v, value, low, high, dzdxi]

/-- When `tre_two` lies between `dos_two` and `qua_two`, the block extrema of `tre_thr` do not
depend on it. -/
theorem Patch.extrema11_of_mem_uIcc (p : Patch K) (between : p.treTwo ∈ uIcc p.dosTwo p.quaTwo) :
    p.extrema.min11 = min (min (min p.dosTwo p.quaTwo) (min p.dosThr p.treThr))
        (min p.quaThr (min p.dosFou p.quaFou)) ∧
      p.extrema.max11 = max (max (max p.dosTwo p.quaTwo) (max p.dosThr p.treThr))
        (max p.quaThr (max p.dosFou p.quaFou)) := by
  rcases mem_uIcc.1 between with ⟨low, high⟩ | ⟨low, high⟩ <;>
  constructor <;> apply le_antisymm <;>
  simp only [Patch.extrema, le_min_iff, max_le_iff] <;>
  simp only [min_le_iff, le_max_iff, le_refl, low, high, or_true, true_or, and_self]

section Windows

variable (R : Int → Int → K)

/-- At a pixel column, mirroring the window in `x` does not change `lbb`. -/
theorem lbb_window_signX (u v sy : Int) (Y : K) :
    lbb (lbbCoefficients 0 Y) (window R u v 1 sy) =
      lbb (lbbCoefficients 0 Y) (window R u v (-1) sy) := by
  refine lbb_left_congr Y rfl rfl ?_ ?_ <;> refine Corner.dzdy_congr rfl ?_ ?_ rfl <;>
  simp only [Patch.corner00, Patch.corner01, Patch.extrema, window, sub_neg_eq_add,
    ← sub_eq_add_neg] <;>
  apply le_antisymm <;>
  simp only [le_min_iff, max_le_iff] <;>
  simp only [min_le_iff, le_max_iff, le_refl, or_true, true_or, and_self]

/-- Halfway between two pixel columns, the windows of the left and right pixels give the same
`lbb`, when the refinement on both columns lies between its neighbours above and below. -/
theorem lbb_window_anchorX (u v sy : Int) (Y : K)
    (near : R u (v + sy) ∈ uIcc (R u v) (R u (v + 2 * sy)))
    (far : R (u + 2) (v + sy) ∈ uIcc (R (u + 2) v) (R (u + 2) (v + 2 * sy))) :
    lbb (lbbCoefficients 1 Y) (window R u v 1 sy) =
      lbb (lbbCoefficients 1 Y) (window R (u + 2) v (-1) sy) := by
  have back : u + 2 + -1 = u + 1 := by ring
  have twice_back : u + 2 + 2 * -1 = u := by ring
  obtain ⟨min11, max11⟩ := (window R u v 1 sy).extrema11_of_mem_uIcc near
  obtain ⟨min11', max11'⟩ := (window R (u + 2) v (-1) sy).extrema11_of_mem_uIcc far
  refine lbb_right_congr Y ?_ ?_ ?_ ?_
  · simp only [window, back]
  · simp only [window, back]
  · refine Corner.dzdy_congr ?_ ?_ ?_ ?_ <;>
    simp only [Patch.corner10, Patch.extrema, window, back, twice_back, mul_one]
    all_goals apply le_antisymm <;>
      simp only [le_min_iff, max_le_iff] <;>
      simp only [min_le_iff, le_max_iff, le_refl, or_true, true_or, and_self]
  · refine Corner.dzdy_congr ?_ ?_ ?_ ?_ <;>
    simp only [Patch.corner11, min11, max11, min11', max11'] <;>
    simp only [window, back, twice_back, mul_one]
    all_goals apply le_antisymm <;>
      simp only [le_min_iff, max_le_iff] <;>
      simp only [min_le_iff, le_max_iff, le_refl, or_true, true_or, and_self]

/-- At a pixel row, mirroring the window in `y` does not change `lbb`. -/
theorem lbb_window_signY (u v sx : Int) (X : K) :
    lbb (lbbCoefficients X 0) (window R u v sx 1) =
      lbb (lbbCoefficients X 0) (window R u v sx (-1)) := by
  refine lbb_top_congr X rfl rfl ?_ ?_ <;> refine Corner.dzdx_congr rfl ?_ ?_ rfl <;>
  simp only [Patch.corner00, Patch.corner10, Patch.extrema, window, sub_neg_eq_add,
    ← sub_eq_add_neg] <;>
  apply le_antisymm <;>
  simp only [le_min_iff, max_le_iff] <;>
  simp only [min_le_iff, le_max_iff, le_refl, or_true, true_or, and_self]

/-- Halfway between two pixel rows, the window of the upper pixel read downward and the window of
the lower pixel read upward give the same `lbb`. -/
theorem lbb_window_anchorY (u v sx : Int) (X : K) :
    lbb (lbbCoefficients X 1) (window R u v sx 1) =
      lbb (lbbCoefficients X 1) (window R u (v + 2) sx (-1)) := by
  have back : v + 2 + -1 = v + 1 := by ring
  have twice_back : v + 2 + 2 * -1 = v := by ring
  refine lbb_bottom_congr X ?_ ?_ ?_ ?_
  · simp only [window, back]
  · simp only [window, back]
  all_goals refine Corner.dzdx_congr ?_ ?_ ?_ ?_ <;>
    simp only [Patch.corner01, Patch.corner11, Patch.extrema, window, back, twice_back, mul_one]
  all_goals apply le_antisymm <;>
    simp only [le_min_iff, max_le_iff] <;>
    simp only [min_le_iff, le_max_iff, le_refl, or_true, true_or, and_self]

end Windows

section Sampler

/-- What the sampler assumes of `gegl_sampler_get_ptr`, which is not in the sources: `getPtr ix iy`
holds channel `k` of pixel `(ix + dx, iy + dy)` at `dx * channels + dy * row_skip + k`. -/
def Fetches (image : Int → Int → Fin 4 → K) (getPtr : Int → Int → Int → K) : Prop :=
  ∀ (ix iy dx dy : Int) (k : Fin 4), |dx| ≤ 2 → |dy| ≤ 2 →
    getPtr ix iy (dx * channels + dy * rowSkip + k.val) = image (ix + dx) (iy + dy) k

/-- A fetch laid out as the sampler's comment describes it, a rectangle `pixels_per_row` pixels
wide around the anchor: the offset is decoded into its channel, its row and its column. -/
def fetchPtr (image : Int → Int → Fin 4 → K) (ix iy offset : Int) : K :=
  let pixel := offset / channels
  let dy := (pixel + pixelsPerRow / 2) / pixelsPerRow
  image (ix + (pixel - dy * pixelsPerRow)) (iy + dy) ((offset % channels).toNat : Fin 4)

omit [LinearOrderedField K] in
/-- Every image has a fetch. -/
theorem fetches_fetchPtr (image : Int → Int → Fin 4 → K) : Fetches image (fetchPtr image) := by
  intro ix iy dx dy k hdx hdy
  rw [abs_le] at hdx hdy
  have hk := k.isLt
  have pixel : (dx * 4 + dy * (4 * 64) + k.val) / 4 = dx + 64 * dy := by omega
  have row : (dx + 64 * dy + 64 / 2) / 64 = dy := by omega
  have channel : ((dx * 4 + dy * (4 * 64) + k.val) % 4).toNat = k.val := by omega
  simp only [fetchPtr, rowSkip, channels, pixelsPerRow, pixel, row, channel, Fin.cast_val_eq_self]
  congr 2
  ring

theorem abs_unit_mul_le {s a : Int} (unit : s = 1 ∨ s = -1) (bound : |a| ≤ 2) : |s * a| ≤ 2 := by
  rcases unit with rfl | rfl <;> simpa using bound

variable {image : Int → Int → Fin 4 → K} {getPtr : Int → Int → Int → K}

omit [LinearOrderedField K] in
/-- The stencil the sampler reads at an anchor is the image read from the anchor in the
directions of the signs. -/
theorem stencil_eq_gridStencil (fetches : Fetches image getPtr) (ix iy sx sy : Int)
    (hx : sx = 1 ∨ sx = -1) (hy : sy = 1 ∨ sy = -1) (k : Fin 4) :
    stencil (getPtr ix iy) sx sy k =
      gridStencil fun a b => image (ix + sx * a) (iy + sy * b) k := by
  have read : ∀ a b : Int, |a| ≤ 2 → |b| ≤ 2 → ∀ shift : Int,
      shift = sx * a * channels + sy * b * rowSkip →
      getPtr ix iy (shift + k.val) = image (ix + sx * a) (iy + sy * b) k := by
    intro a b ha hb shift h
    rw [h]
    exact fetches ix iy (sx * a) (sy * b) k (abs_unit_mul_le hx ha) (abs_unit_mul_le hy hb)
  ext <;> simp only [stencil, gridStencil] <;>
  exact read _ _ (by norm_num) (by norm_num) _ (by ring)

/-- The LBB-Nohalo value at an anchor, for unit signs, is LBB applied to the window of the
refinement of the image at twice the anchor. -/
theorem lbbNohalo_eq_window (fetches : Fetches image getPtr) (ix iy sx sy : Int)
    (hx : sx = 1 ∨ sx = -1) (hy : sy = 1 ∨ sy = -1) (x0 y0 : K) (k : Fin 4) :
    lbbNohalo (getPtr ix iy) sx sy x0 y0 k =
      lbb (lbbCoefficients (((2 * sx : Int) : K) * x0) (((2 * sy : Int) : K) * y0))
        (window (refined fun x y => image x y k) (2 * ix) (2 * iy) sx sy) := by
  simp only [lbbNohalo]
  rw [stencil_eq_gridStencil fetches ix iy sx sy hx hy k]
  exact congrArg _ (nohaloSubdivision_reflected (fun x y => image x y k) ix iy sx sy hx hy)

/-! ## The seams of the sampler -/

variable (fetches : Fetches image getPtr) (k : Fin 4)
include fetches

/-- Where `x_0 = 0`, both signs of `x_0` give the same value. -/
theorem lbbNohalo_signX (ix iy sy : Int) (hy : sy = 1 ∨ sy = -1) (y0 : K) :
    lbbNohalo (getPtr ix iy) 1 sy 0 y0 k = lbbNohalo (getPtr ix iy) (-1) sy 0 y0 k := by
  rw [lbbNohalo_eq_window fetches ix iy 1 sy (Or.inl rfl) hy,
    lbbNohalo_eq_window fetches ix iy (-1) sy (Or.inr rfl) hy, mul_zero, mul_zero]
  exact lbb_window_signX _ _ _ _ _

/-- Where the sampling point is halfway between two pixel columns, the left anchor with the
positive sign and the right anchor with the negative sign give the same value. -/
theorem lbbNohalo_anchorX (ix iy sy : Int) (hy : sy = 1 ∨ sy = -1) (y0 : K) :
    lbbNohalo (getPtr ix iy) 1 sy (1 / 2) y0 k =
      lbbNohalo (getPtr (ix + 1) iy) (-1) sy (-1 / 2) y0 k := by
  rw [lbbNohalo_eq_window fetches ix iy 1 sy (Or.inl rfl) hy,
    lbbNohalo_eq_window fetches (ix + 1) iy (-1) sy (Or.inr rfl) hy,
    show ((2 * 1 : Int) : K) * (1 / 2) = 1 by norm_num,
    show ((2 * -1 : Int) : K) * (-1 / 2) = 1 by norm_num, mul_add_one]
  refine lbb_window_anchorX _ _ _ _ _ (refined_mem_uIcc _ ix iy sy hy) ?_
  rw [← mul_add_one]
  exact refined_mem_uIcc _ (ix + 1) iy sy hy

/-- Where `y_0 = 0`, both signs of `y_0` give the same value. -/
theorem lbbNohalo_signY (ix iy sx : Int) (hx : sx = 1 ∨ sx = -1) (x0 : K) :
    lbbNohalo (getPtr ix iy) sx 1 x0 0 k = lbbNohalo (getPtr ix iy) sx (-1) x0 0 k := by
  rw [lbbNohalo_eq_window fetches ix iy sx 1 hx (Or.inl rfl),
    lbbNohalo_eq_window fetches ix iy sx (-1) hx (Or.inr rfl), mul_zero, mul_zero]
  exact lbb_window_signY _ _ _ _ _

/-- Where the sampling point is halfway between two pixel rows, the upper anchor with the
positive sign and the lower anchor with the negative sign give the same value. -/
theorem lbbNohalo_anchorY (ix iy sx : Int) (hx : sx = 1 ∨ sx = -1) (x0 : K) :
    lbbNohalo (getPtr ix iy) sx 1 x0 (1 / 2) k =
      lbbNohalo (getPtr ix (iy + 1)) sx (-1) x0 (-1 / 2) k := by
  rw [lbbNohalo_eq_window fetches ix iy sx 1 hx (Or.inl rfl),
    lbbNohalo_eq_window fetches ix (iy + 1) sx (-1) hx (Or.inr rfl),
    show ((2 * 1 : Int) : K) * (1 / 2) = 1 by norm_num,
    show ((2 * -1 : Int) : K) * (-1 / 2) = 1 by norm_num, mul_add_one]
  exact lbb_window_anchorY _ _ _ _ _

end Sampler

/-! ## Half-pixel cells

Cell `j` is `[j / 2, (j + 1) / 2]`; inside it the anchor is `(j + 1) / 2` and the sign is `1` for
even `j`, `-1` for odd `j`. -/

/-- The anchor of the half-pixel cell `j`. -/
def cellAnchor (j : Int) : Int := (j + 1) / 2

/-- The sign of the offsets inside the half-pixel cell `j`. -/
def cellSign (j : Int) : Int := if j % 2 = 0 then 1 else -1

theorem cellSign_unit (j : Int) : cellSign j = 1 ∨ cellSign j = -1 := by
  unfold cellSign; split_ifs <;> simp

@[simp] theorem cellAnchor_two_mul (m : Int) : cellAnchor (2 * m) = m := by
  unfold cellAnchor; omega

@[simp] theorem cellSign_two_mul (m : Int) : cellSign (2 * m) = 1 := by
  simp [cellSign]

@[simp] theorem cellAnchor_two_mul_add_one (m : Int) : cellAnchor (2 * m + 1) = m + 1 := by
  unfold cellAnchor; omega

@[simp] theorem cellSign_two_mul_add_one (m : Int) : cellSign (2 * m + 1) = -1 := by
  simp only [cellSign]; rw [if_neg (by omega)]

@[simp] theorem cellAnchor_two_mul_sub_one (m : Int) : cellAnchor (2 * m - 1) = m := by
  unfold cellAnchor; omega

@[simp] theorem cellSign_two_mul_sub_one (m : Int) : cellSign (2 * m - 1) = -1 := by
  simp only [cellSign]; rw [if_neg (by omega)]

section Cells

theorem signOf_unit (x : K) : signOf x = 1 ∨ signOf x = -1 := by
  unfold signOf; split_ifs <;> simp

theorem signOf_of_nonneg {x : K} (nonneg : 0 ≤ x) : signOf x = 1 := by
  simp [signOf, nonneg]

theorem signOf_of_neg {x : K} (neg : x < 0) : signOf x = -1 := by
  simp [signOf, not_le.2 neg]

theorem le_of_cast_lt_add_one {m n : Int} (lt : (m : K) < n + 1) : m ≤ n := by
  have : ((m : Int) : K) < ((n + 1 : Int) : K) := by push_cast; exact lt
  have := Int.cast_lt.1 this
  omega

variable [FloorRing K]

/-- Every position lies in a half-pixel cell. -/
theorem exists_mem_cell (a : K) : ∃ j : Int, a ∈ Icc ((j : K) / 2) (((j : K) + 1) / 2) :=
  ⟨⌊2 * a⌋, by linarith [Int.floor_le (2 * a)], by linarith [Int.lt_floor_add_one (2 * a)]⟩

/-- On a closed half-pixel cell the sampler's anchor and sign give the cell's own value, provided
the values agree across the two seams of an axis. -/
theorem eq_cell_of_mem {α : Type} (Φ : Int → Int → K → α) (signSeam : ∀ n, Φ n 1 0 = Φ n (-1) 0)
    (anchorSeam : ∀ n, Φ n 1 (1 / 2) = Φ (n + 1) (-1) (-1 / 2)) {j : Int} {a : K}
    (cell : a ∈ Icc ((j : K) / 2) (((j : K) + 1) / 2)) :
    Φ (anchor a) (signOf (offset a)) (offset a) =
      Φ (cellAnchor j) (cellSign j) (a - cellAnchor j) := by
  obtain ⟨low, high⟩ := abs_le.1 (abs_offset_le a)
  have offset_eq : offset a = a - anchor a := rfl
  rw [offset_eq] at low high ⊢
  obtain ⟨m, rfl | rfl⟩ : ∃ m, j = 2 * m ∨ j = 2 * m - 1 := ⟨(j + 1) / 2, by omega⟩
  · -- the cell `[m, m + 1/2]`, where the anchor is `m` or, at its right end, `m + 1`
    rw [show cellAnchor (2 * m) = m by unfold cellAnchor; omega,
      show cellSign (2 * m) = 1 by simp [cellSign]]
    push_cast at cell
    obtain ⟨left, right⟩ := cell
    have lo : m ≤ anchor a := le_of_cast_lt_add_one (K := K) (by linarith only [left, high])
    have hi : anchor a ≤ m + 1 :=
      le_of_cast_lt_add_one (K := K) (by push_cast; linarith only [low, right])
    rcases (show anchor a = m ∨ anchor a = m + 1 by omega) with same | next
    · rw [same, signOf_of_nonneg (by linarith only [left])]
    · have at_end : a = m + 1 / 2 := by
        rw [next] at low; push_cast at low; linarith only [low, right]
      rw [next, at_end]
      push_cast
      rw [show (m : K) + 1 / 2 - (m + 1) = -1 / 2 by ring, show (m : K) + 1 / 2 - m = 1 / 2 by ring,
        signOf_of_neg (by norm_num)]
      exact (anchorSeam m).symm
  · -- the cell `[m - 1/2, m]`, where the anchor is `m` or, at its left end, `m - 1`
    rw [show cellAnchor (2 * m - 1) = m by unfold cellAnchor; omega,
      show cellSign (2 * m - 1) = -1 by simp only [cellSign]; rw [if_neg (by omega)]]
    push_cast at cell
    obtain ⟨left, right⟩ := cell
    have lo : m - 1 ≤ anchor a :=
      le_of_cast_lt_add_one (K := K) (by push_cast; linarith only [left, high])
    have hi : anchor a ≤ m := le_of_cast_lt_add_one (K := K) (by linarith only [low, right])
    rcases (show anchor a = m ∨ anchor a = m - 1 by omega) with same | previous
    · rw [same]
      rcases lt_or_eq_of_le (show a ≤ m by linarith only [right]) with inside | at_end
      · rw [signOf_of_neg (by linarith only [inside])]
      · rw [at_end, sub_self, signOf_of_nonneg le_rfl]
        exact signSeam m
    · have at_end : a = m - 1 / 2 := by
        rw [previous] at high; push_cast at high; linarith only [high, left]
      rw [previous, at_end]
      push_cast
      rw [show (m : K) - 1 / 2 - (m - 1) = 1 / 2 by ring, show (m : K) - 1 / 2 - m = -1 / 2 by ring,
        signOf_of_nonneg (by norm_num), anchorSeam, sub_add_cancel]

variable {image : Int → Int → Fin 4 → K} {getPtr : Int → Int → Int → K}

/-- On every closed cell of the half-pixel grid, the sampler's LBB-Nohalo value is the value that
the cell's anchors and signs give. -/
theorem newvalAt_eq_cell (fetches : Fetches image getPtr) (k : Fin 4) {j j' : Int} {ax ay : K}
    (cellX : ax ∈ Icc ((j : K) / 2) (((j : K) + 1) / 2))
    (cellY : ay ∈ Icc ((j' : K) / 2) (((j' : K) + 1) / 2)) :
    newvalAt getPtr ax ay k =
      lbbNohalo (getPtr (cellAnchor j) (cellAnchor j')) (cellSign j) (cellSign j')
        (ax - cellAnchor j) (ay - cellAnchor j') k :=
  calc newvalAt getPtr ax ay k
    _ = lbbNohalo (getPtr (cellAnchor j) (anchor ay)) (cellSign j) (signOf (offset ay))
          (ax - cellAnchor j) (offset ay) k :=
      eq_cell_of_mem
        (fun n s x0 => lbbNohalo (getPtr n (anchor ay)) s (signOf (offset ay)) x0 (offset ay) k)
        (fun n => lbbNohalo_signX fetches k n _ _ (signOf_unit _) _)
        (fun n => lbbNohalo_anchorX fetches k n _ _ (signOf_unit _) _) cellX
    _ = _ :=
      eq_cell_of_mem
        (fun n s y0 => lbbNohalo (getPtr (cellAnchor j) n) (cellSign j) s (ax - cellAnchor j) y0 k)
        (fun n => lbbNohalo_signY fetches k _ n _ (cellSign_unit j) _)
        (fun n => lbbNohalo_anchorY fetches k _ n _ (cellSign_unit j) _) cellY

end Cells

end Lohalo
end Gegl
