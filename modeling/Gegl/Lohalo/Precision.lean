import Gegl.Lohalo.Seams

/-!
# What LBB-Nohalo reproduces

`lbb`'s comments say "LBB is interpolatory" and "when the limiters are inactive, LBB gives the
same results as Catmull-Rom". Both hold of the code, and on the sampler they make LBB-Nohalo pass
through every pixel and every refined value, and reproduce every affine image exactly.
-/

namespace Gegl
namespace Lohalo

open Set

variable {K : Type} [LinearOrderedField K]

theorem sign_mul_self (d : K) : sign d * d = |d| := by
  unfold sign
  split_ifs with nonneg
  · rw [one_mul, abs_of_nonneg nonneg]
  · rw [neg_one_mul, abs_of_neg (not_le.1 nonneg)]

/-- A derivative within the slope limit is not clamped. -/
theorem clampSlope_of_abs_le {d limit : K} (within : |d| ≤ limit) : clampSlope d limit = d := by
  rw [clampSlope, sign_mul_self, if_pos within]

/-- A cross derivative within the four limits is not limited. -/
theorem limitCross_of_mem {q twelveSum twelveDif uTimes36 vTimes36 : K}
    (within : q ∈ Icc (max (|twelveSum| - uTimes36) (|twelveDif| - vTimes36))
      (min (vTimes36 - |twelveSum|) (uTimes36 - |twelveDif|))) :
    limitCross q twelveSum twelveDif uTimes36 vTimes36 = q := by
  obtain ⟨⟨first, third⟩, ⟨second, fourth⟩⟩ := And.imp max_le_iff.1 le_min_iff.1 within
  simp only [limitCross, max_eq_left first, min_eq_left second, max_eq_left third,
    min_eq_left fourth]

/-- The limiters of a corner are inactive: its raw first derivatives lie within the slope limit,
and its raw cross derivative within the four cross limits that these derivatives give. -/
structure Corner.Inactive (c : Corner K) : Prop where
  dzdxi_le : |c.dzdxi| ≤ c.slopeLimit
  dzdyi_le : |c.dzdyi| ≤ c.slopeLimit
  d2zdxdyi_mem : c.d2zdxdyi ∈
    Icc (max (|6 * (c.dzdxi + c.dzdyi)| - 36 * c.u) (|6 * (c.dzdxi - c.dzdyi)| - 36 * c.v))
      (min (36 * c.v - |6 * (c.dzdxi + c.dzdyi)|) (36 * c.u - |6 * (c.dzdxi - c.dzdyi)|))

namespace Corner.Inactive

variable {c : Corner K} (inactive : c.Inactive)
include inactive

theorem dzdx_eq : c.dzdx = c.dzdxi := clampSlope_of_abs_le inactive.dzdxi_le

theorem dzdy_eq : c.dzdy = c.dzdyi := clampSlope_of_abs_le inactive.dzdyi_le

theorem d2zdxdy_eq : c.d2zdxdy = c.d2zdxdyi := by
  rw [Corner.d2zdxdy, inactive.dzdx_eq, inactive.dzdy_eq]
  exact limitCross_of_mem inactive.d2zdxdyi_mem

end Corner.Inactive

/-- A corner whose neighbours along each axis are its value moved both ways by one step, with no
cross term and its block range holding them, has inactive limiters. -/
theorem Corner.inactive_of_linear {c : Corner K} {l r t b : K} (dx : c.dzdxi = r - l)
    (dy : c.dzdyi = b - t) (dxy : c.d2zdxdyi = 0) (mid_x : c.value - l = r - c.value)
    (mid_y : c.value - t = b - c.value) (hl : l ∈ Icc c.low c.high) (hr : r ∈ Icc c.low c.high)
    (ht : t ∈ Icc c.low c.high) (hb : b ∈ Icc c.low c.high) : c.Inactive := by
  have u_eq : c.u = c.value - c.low := rfl
  have v_eq : c.v = c.high - c.value := rfl
  -- each step is at most the distance to either end of the block range
  have ux : |r - c.value| ≤ c.u := abs_le.2 ⟨by linarith only [hr.1, mid_x, u_eq],
    by linarith only [hl.1, mid_x, u_eq]⟩
  have vx : |r - c.value| ≤ c.v := abs_le.2 ⟨by linarith only [hl.2, mid_x, v_eq],
    by linarith only [hr.2, v_eq]⟩
  have uy : |b - c.value| ≤ c.u := abs_le.2 ⟨by linarith only [hb.1, mid_y, u_eq],
    by linarith only [ht.1, mid_y, u_eq]⟩
  have vy : |b - c.value| ≤ c.v := abs_le.2 ⟨by linarith only [ht.2, mid_y, v_eq],
    by linarith only [hb.2, v_eq]⟩
  have twice_x : c.dzdxi = 2 * (r - c.value) := by rw [dx]; linarith only [mid_x]
  have twice_y : c.dzdyi = 2 * (b - c.value) := by rw [dy]; linarith only [mid_y]
  have sum : |6 * (c.dzdxi + c.dzdyi)| ≤ 12 * (|r - c.value| + |b - c.value|) := by
    rw [twice_x, twice_y, show 6 * (2 * (r - c.value) + 2 * (b - c.value)) =
      12 * ((r - c.value) + (b - c.value)) by ring, abs_mul,
      abs_of_pos (by norm_num : (0 : K) < 12)]
    exact mul_le_mul_of_nonneg_left (abs_add _ _) (by norm_num)
  have dif : |6 * (c.dzdxi - c.dzdyi)| ≤ 12 * (|r - c.value| + |b - c.value|) := by
    rw [twice_x, twice_y, show 6 * (2 * (r - c.value) - 2 * (b - c.value)) =
      12 * ((r - c.value) - (b - c.value)) by ring, abs_mul,
      abs_of_pos (by norm_num : (0 : K) < 12)]
    exact mul_le_mul_of_nonneg_left (abs_sub _ _) (by norm_num)
  have x_nonneg := abs_nonneg (r - c.value)
  have y_nonneg := abs_nonneg (b - c.value)
  refine ⟨?_, ?_, ?_⟩
  · rw [Corner.slopeLimit, twice_x, abs_mul, abs_two]
    linarith only [le_min ux vx, x_nonneg]
  · rw [Corner.slopeLimit, twice_y, abs_mul, abs_two]
    linarith only [le_min uy vy, y_nonneg]
  · rw [dxy]
    exact ⟨max_le (by linarith only [sum, ux, uy, x_nonneg])
        (by linarith only [dif, vx, vy, x_nonneg]),
      le_min (by linarith only [sum, vx, vy, x_nonneg])
        (by linarith only [dif, ux, uy, x_nonneg])⟩

/-- The 4x4 stencil of the affine function `c + a A + b B`, `a` columns and `b` rows from
`dos_two`. -/
def affinePatch (c A B : K) : Patch K :=
  { unoOne := c - A - B, unoTwo := c - B, unoThr := c + A - B, unoFou := c + 2 * A - B,
    dosOne := c - A, dosTwo := c, dosThr := c + A, dosFou := c + 2 * A,
    treOne := c - A + B, treTwo := c + B, treThr := c + A + B, treFou := c + 2 * A + B,
    quaOne := c - A + 2 * B, quaTwo := c + 2 * B, quaThr := c + A + 2 * B,
    quaFou := c + 2 * A + 2 * B }

/-- On an affine stencil the limiters of all four corners are inactive. The block of `tre_thr`
omits `tre_fou`, which lies between `dos_fou` and `qua_fou`. -/
theorem affinePatch_inactive (c A B : K) :
    (affinePatch c A B).corner00.Inactive ∧ (affinePatch c A B).corner10.Inactive ∧
      (affinePatch c A B).corner01.Inactive ∧ (affinePatch c A B).corner11.Inactive := by
  have treFou_mem : (affinePatch c A B).treFou ∈
      uIcc (affinePatch c A B).dosFou (affinePatch c A B).quaFou := by
    convert midpoint_mem_uIcc (left_mem_uIcc (a := c + 2 * A) (b := c + 2 * A + 2 * B))
      right_mem_uIcc using 1
    simp only [affinePatch]
    ring
  refine ⟨Corner.inactive_of_linear rfl rfl ?_ ?_ ?_ ?_ ?_ ?_ ?_,
    Corner.inactive_of_linear rfl rfl ?_ ?_ ?_ ?_ ?_ ?_ ?_,
    Corner.inactive_of_linear rfl rfl ?_ ?_ ?_ ?_ ?_ ?_ ?_,
    Corner.inactive_of_linear rfl rfl ?_ ?_ ?_ ?_
      ⟨min_le_of_right_le treFou_mem.1, le_max_of_le_right treFou_mem.2⟩ ?_ ?_⟩
  all_goals first
    | (simp only [Patch.corner00, Patch.corner10, Patch.corner01, Patch.corner11, Patch.extrema,
        mem_Icc, min_le_iff, le_max_iff, le_refl, true_or, or_true, and_self]; done)
    | (simp only [Patch.corner00, Patch.corner10, Patch.corner01, Patch.corner11, affinePatch]
       ring1)

/-! ## Catmull-Rom -/

/-- The Catmull-Rom spline through `p1` and `p2` at relative position `t`, with the outer values
`p0` and `p3`. -/
def catmullRom1 (t p0 p1 p2 p3 : K) : K :=
  ((-t ^ 3 + 2 * t ^ 2 - t) * p0 + (3 * t ^ 3 - 5 * t ^ 2 + 2) * p1 +
    (-3 * t ^ 3 + 4 * t ^ 2 + t) * p2 + (t ^ 3 - t ^ 2) * p3) / 2

/-- The tensor product Catmull-Rom spline of a 4x4 stencil: columns `one` to `fou` along `X`, rows
`uno` to `qua` along `Y`, with `dos_two` at `(0, 0)`. -/
def catmullRom (X Y : K) (p : Patch K) : K :=
  catmullRom1 Y (catmullRom1 X p.unoOne p.unoTwo p.unoThr p.unoFou)
    (catmullRom1 X p.dosOne p.dosTwo p.dosThr p.dosFou)
    (catmullRom1 X p.treOne p.treTwo p.treThr p.treFou)
    (catmullRom1 X p.quaOne p.quaTwo p.quaThr p.quaFou)

/-- Where the limiters of all four corners are inactive, LBB is the Catmull-Rom spline of its
stencil at every position. -/
theorem lbb_eq_catmullRom (p : Patch K) (X Y : K) (inactive00 : p.corner00.Inactive)
    (inactive10 : p.corner10.Inactive) (inactive01 : p.corner01.Inactive)
    (inactive11 : p.corner11.Inactive) : lbb (lbbCoefficients X Y) p = catmullRom X Y p := by
  simp only [lbb, inactive00.dzdx_eq, inactive00.dzdy_eq, inactive00.d2zdxdy_eq,
    inactive10.dzdx_eq, inactive10.dzdy_eq, inactive10.d2zdxdy_eq, inactive01.dzdx_eq,
    inactive01.dzdy_eq, inactive01.d2zdxdy_eq, inactive11.dzdx_eq, inactive11.dzdy_eq,
    inactive11.d2zdxdy_eq]
  simp only [Patch.corner00, Patch.corner10, Patch.corner01, Patch.corner11, lbbCoefficients,
    catmullRom, catmullRom1]
  ring

theorem lbb_eq_catmullRom_ramp :
    ((affinePatch (1 : ℚ) 2 (-1)).corner00.Inactive ∧
        (affinePatch (1 : ℚ) 2 (-1)).corner10.Inactive ∧
        (affinePatch (1 : ℚ) 2 (-1)).corner01.Inactive ∧
        (affinePatch (1 : ℚ) 2 (-1)).corner11.Inactive) ∧
      lbb (lbbCoefficients (1 / 3) (3 / 4)) (affinePatch (1 : ℚ) 2 (-1)) =
        catmullRom (1 / 3) (3 / 4) (affinePatch (1 : ℚ) 2 (-1)) :=
  have inactive := affinePatch_inactive (1 : ℚ) 2 (-1)
  ⟨inactive, lbb_eq_catmullRom _ _ _ inactive.1 inactive.2.1 inactive.2.2.1 inactive.2.2.2⟩

section Corners

variable (p : Patch K)

theorem lbb_zero_zero : lbb (lbbCoefficients 0 0) p = p.dosTwo := by
  simp only [lbb, lbbCoefficients, add_neg_cancel, mul_zero, zero_mul, add_zero, zero_add]
  ring

theorem lbb_one_zero : lbb (lbbCoefficients 1 0) p = p.dosThr := by
  simp only [lbb, lbbCoefficients, add_neg_cancel, mul_zero, zero_mul, add_zero, zero_add]
  ring

theorem lbb_zero_one : lbb (lbbCoefficients 0 1) p = p.treTwo := by
  simp only [lbb, lbbCoefficients, add_neg_cancel, mul_zero, zero_mul, add_zero, zero_add]
  ring

theorem lbb_one_one : lbb (lbbCoefficients 1 1) p = p.treThr := by
  simp only [lbb, lbbCoefficients, add_neg_cancel, mul_zero, zero_mul, add_zero, zero_add]
  ring

/-- At the four corners of its patch, LBB on a window returns the grid value `e` steps along and
`f` steps down from the window's corner `dos_two`. -/
theorem lbb_window_corner (R : Int → Int → K) (u v sx sy : Int) {e f : Int} (he : e = 0 ∨ e = 1)
    (hf : f = 0 ∨ f = 1) :
    lbb (lbbCoefficients (e : K) (f : K)) (window R u v sx sy) = R (u + e * sx) (v + f * sy) := by
  rcases he with rfl | rfl <;> rcases hf with rfl | rfl <;>
  simp only [Int.cast_zero, Int.cast_one, lbb_zero_zero, lbb_one_zero, lbb_zero_one, lbb_one_one,
    window, zero_mul, one_mul, add_zero]

end Corners

/-- The half-pixel position `u / 2` is the start of the patch of the half-pixel cell `u`, for even
`u`, or its end, for odd `u`: either way it is `u` half-pixels from the origin. -/
theorem half_cell (u : Int) : ∃ e : Int, (e = 0 ∨ e = 1) ∧
    ((2 * cellSign u : Int) : K) * ((u : K) / 2 - cellAnchor u) = e ∧
      2 * cellAnchor u + e * cellSign u = u := by
  obtain ⟨m, rfl | rfl⟩ : ∃ m, u = 2 * m ∨ u = 2 * m + 1 := ⟨u / 2, by omega⟩
  · rw [cellAnchor_two_mul, cellSign_two_mul]
    exact ⟨0, Or.inl rfl, by push_cast; ring, by ring⟩
  · rw [cellAnchor_two_mul_add_one, cellSign_two_mul_add_one]
    exact ⟨1, Or.inr rfl, by push_cast; ring, by ring⟩

theorem half_mem_cell (u : Int) : (u : K) / 2 ∈ Icc ((u : K) / 2) (((u : K) + 1) / 2) :=
  left_mem_Icc.2 (by linarith)

section Sampler

variable [FloorRing K] {image : Int → Int → Fin 4 → K} {getPtr : Int → Int → Int → K}

/-- LBB-Nohalo is interpolatory: at every half-pixel position its value is the Nohalo refinement's,
so at every pixel it is the pixel. -/
theorem newvalAt_interpolates (fetches : Fetches image getPtr) (k : Fin 4) :
    (∀ u v : Int, newvalAt getPtr ((u : K) / 2) ((v : K) / 2) k =
      refined (fun x y => image x y k) u v) ∧
    ∀ x y : Int, newvalAt getPtr (x : K) (y : K) k = image x y k := by
  have half : ∀ u v : Int, newvalAt getPtr ((u : K) / 2) ((v : K) / 2) k =
      refined (fun x y => image x y k) u v := by
    intro u v
    obtain ⟨e, he, hX, hu⟩ := half_cell (K := K) u
    obtain ⟨f, hf, hY, hv⟩ := half_cell (K := K) v
    rw [newvalAt_eq_cell fetches k (half_mem_cell u) (half_mem_cell v),
      lbbNohalo_eq_window fetches _ _ _ _ (cellSign_unit u) (cellSign_unit v), hX, hY,
      lbb_window_corner _ _ _ _ _ he hf, hu, hv]
  refine ⟨half, fun x y => ?_⟩
  have pixel := half (2 * x) (2 * y)
  push_cast at pixel
  rwa [mul_div_cancel_left₀ _ two_ne_zero, mul_div_cancel_left₀ _ two_ne_zero,
    refined_even_even] at pixel

theorem newvalAt_interpolates_quadratic :
    Fetches (fun x y _ => ((x * x - y : Int) : ℚ)) (fetchPtr fun x y _ => ((x * x - y : Int) : ℚ)) ∧
      (∀ u v : Int, newvalAt (fetchPtr fun x y _ => ((x * x - y : Int) : ℚ)) ((u : ℚ) / 2)
          ((v : ℚ) / 2) 0 = refined (fun x y => ((x * x - y : Int) : ℚ)) u v) ∧
        ∀ x y : Int, newvalAt (fetchPtr fun x y _ => ((x * x - y : Int) : ℚ)) (x : ℚ) (y : ℚ) 0 =
          ((x * x - y : Int) : ℚ) :=
  ⟨fetches_fetchPtr _, newvalAt_interpolates (fetches_fetchPtr _) 0⟩

end Sampler

/-! ## Affine images -/

theorem minmodOf_self (d : K) : minmodOf d d = d := by
  simp only [minmodOf, minmod, ge_iff_le, mul_self_nonneg, le_refl, if_true, ite_self]

section Affine

variable (α β γ : K)

/-- The minmod slopes of an affine image are its differences. -/
theorem slopeX_affine (x y : Int) : slopeX (fun a b => α * a + β * b + γ) x y = α := by
  simp only [slopeX, Int.cast_sub, Int.cast_add, Int.cast_one]
  rw [show α * x + β * y + γ - (α * (x - 1) + β * y + γ) = α by ring,
    show α * (x + 1) + β * y + γ - (α * x + β * y + γ) = α by ring, minmodOf_self]

theorem slopeY_affine (x y : Int) : slopeY (fun a b => α * a + β * b + γ) x y = β := by
  simp only [slopeY, Int.cast_sub, Int.cast_add, Int.cast_one]
  rw [show α * x + β * y + γ - (α * x + β * (y - 1) + γ) = β by ring,
    show α * x + β * (y + 1) + γ - (α * x + β * y + γ) = β by ring, minmodOf_self]

theorem edgeX_affine (x y : Int) :
    edgeX (fun a b => α * a + β * b + γ) x y = α * (x + 1 / 2) + β * y + γ := by
  simp only [edgeX, slopeX_affine, Int.cast_add, Int.cast_one]
  ring

theorem edgeY_affine (x y : Int) :
    edgeY (fun a b => α * a + β * b + γ) x y = α * x + β * (y + 1 / 2) + γ := by
  simp only [edgeY, slopeY_affine, Int.cast_add, Int.cast_one]
  ring

theorem centre_affine (x y : Int) :
    centre (fun a b => α * a + β * b + γ) x y = α * (x + 1 / 2) + β * (y + 1 / 2) + γ := by
  simp only [centre, slopeX_affine, edgeY_affine, Int.cast_add, Int.cast_one]
  ring

/-- The Nohalo refinement of an affine image is the affine function at half-pixel positions. -/
theorem refined_affine (u v : Int) :
    refined (fun a b => α * a + β * b + γ) u v = α * u / 2 + β * v / 2 + γ := by
  obtain ⟨x, y, rfl | rfl, rfl | rfl⟩ := refined_cases u v
  · rw [refined_even_even]; push_cast; ring
  · rw [refined_even_odd, edgeY_affine]; push_cast; ring
  · rw [refined_odd_even, edgeX_affine]; push_cast; ring
  · rw [refined_odd_odd, centre_affine]; push_cast; ring

end Affine

/-- LBB reproduces the affine function on its stencil. -/
theorem lbb_affinePatch (X Y c A B : K) :
    lbb (lbbCoefficients X Y) (affinePatch c A B) = c + X * A + Y * B := by
  obtain ⟨i00, i10, i01, i11⟩ := affinePatch_inactive c A B
  simp only [lbb, i00.dzdx_eq, i00.dzdy_eq, i00.d2zdxdy_eq, i10.dzdx_eq, i10.dzdy_eq,
    i10.d2zdxdy_eq, i01.dzdx_eq, i01.dzdy_eq, i01.d2zdxdy_eq, i11.dzdx_eq, i11.dzdy_eq,
    i11.d2zdxdy_eq]
  simp only [Patch.corner00, Patch.corner10, Patch.corner01, Patch.corner11, affinePatch,
    lbbCoefficients]
  ring

/-- The sampler's window of the refinement of an affine image is an affine stencil. -/
theorem window_refined_affine (α β γ : K) (ix iy sx sy : Int) :
    window (refined fun a b => α * a + β * b + γ) (2 * ix) (2 * iy) sx sy =
      affinePatch (α * ix + β * iy + γ) (sx * α / 2) (sy * β / 2) := by
  ext <;> simp only [window, affinePatch, refined_affine] <;> push_cast <;> ring

section Sampler

variable [FloorRing K] {getPtr : Int → Int → Int → K}

/-- LBB-Nohalo reproduces affine images at every sampling position, and the sampler ships that
value when `twice_s1s1 < 2 + LOHALO_FUDGE`. -/
theorem newvalAt_affine (α β γ : Fin 4 → K)
    (fetches : Fetches (fun x y k => α k * x + β k * y + γ k) getPtr) (absoluteX absoluteY : K) :
    (∀ k, newvalAt getPtr absoluteX absoluteY k = α k * absoluteX + β k * absoluteY + γ k) ∧
      ∀ (root : Sqrt K) (inverseJacobian : Jacobian K) (boundingBoxFits : Bool),
        (axes root inverseJacobian).twiceS1s1 < 2 + fudge →
          get root getPtr inverseJacobian boundingBoxFits absoluteX absoluteY =
            some fun k => α k * absoluteX + β k * absoluteY + γ k := by
  have value : ∀ k, newvalAt getPtr absoluteX absoluteY k =
      α k * absoluteX + β k * absoluteY + γ k := by
    intro k
    have hx := signOf_unit (offset absoluteX)
    have hy := signOf_unit (offset absoluteY)
    simp only [newvalAt, lbbNohalo_eq_window fetches _ _ _ _ hx hy, window_refined_affine,
      lbb_affinePatch]
    rcases hx with sx | sx <;> rcases hy with sy | sy <;> rw [sx, sy] <;> simp only [offset] <;>
    push_cast <;> ring
  exact ⟨value, fun root inverseJacobian boundingBoxFits pure => by
    dsimp only [get]; rw [if_pos pure]; exact congrArg some (funext value)⟩

theorem newvalAt_affine_ramp :
    Fetches (fun x y k => 2 * (x : ℝ) + -1 * (y : ℝ) + (k.val : ℝ))
        (fetchPtr fun x y k => 2 * (x : ℝ) + -1 * (y : ℝ) + (k.val : ℝ)) ∧
      (∀ k : Fin 4, newvalAt (fetchPtr fun x y k => 2 * (x : ℝ) + -1 * (y : ℝ) + (k.val : ℝ))
          (1 / 3) (-5 / 4) k = 2 * (1 / 3) + -1 * (-5 / 4) + (k.val : ℝ)) ∧
      (axes Sqrt.real ⟨1, 0, 0, 1⟩).twiceS1s1 < 2 + fudge ∧
      get Sqrt.real (fetchPtr fun x y k => 2 * (x : ℝ) + -1 * (y : ℝ) + (k.val : ℝ))
          ⟨1, 0, 0, 1⟩ true (1 / 3) (-5 / 4) =
        some fun k => 2 * (1 / 3) + -1 * (-5 / 4) + (k.val : ℝ) :=
  have identity : (axes Sqrt.real ⟨1, 0, 0, 1⟩).twiceS1s1 < 2 + fudge := by
    norm_num [axes, Sqrt.real, fudge]
  have affine := newvalAt_affine (fun _ => (2 : ℝ)) (fun _ => -1) (fun k => (k.val : ℝ))
    (fetches_fetchPtr _) (1 / 3) (-5 / 4)
  ⟨fetches_fetchPtr _, affine.1, identity, affine.2 Sqrt.real ⟨1, 0, 0, 1⟩ true identity⟩

end Sampler

end Lohalo
end Gegl
