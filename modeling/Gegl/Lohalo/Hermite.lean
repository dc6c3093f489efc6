import Gegl.Lohalo.Precision

/-!
# LBB as a Hermite bicubic, and its seams to first order

`lbb`'s comment calls LBB "a Hermite bicubic method" that "is C^1 with continuous cross
derivatives". Its sixteen coefficients are products of the cubic Hermite basis in `X` and `Y`, and
across a seam the corners are read with one axis reversed, which the limiters commute with, so the
patches on both sides differ by the squared distance to the seam times a polynomial.
-/

namespace Gegl
namespace Lohalo

open Set

variable {K : Type} [LinearOrderedField K]

/-- The cubic Hermite interpolant on `[0, 1]` with the values `a₀` and `a₁` and the slopes `d₀`
and `d₁` at its ends. -/
def hermite (t a₀ d₀ a₁ d₁ : K) : K :=
  (1 + 2 * t) * (1 - t) ^ 2 * a₀ + t * (1 - t) ^ 2 * d₀ + (3 - 2 * t) * t ^ 2 * a₁ +
    (t - 1) * t ^ 2 * d₁

theorem hermite_neg (t a₀ d₀ a₁ d₁ : K) :
    hermite t (-a₀) (-d₀) (-a₁) (-d₁) = -hermite t a₀ d₀ a₁ d₁ := by
  unfold hermite; ring

namespace Corner

/-- The values along the edge of a patch from corner `c` to corner `c'` in `y`. The halves and
quarters undo the doubling and quadrupling of the derivatives `lbb` works with. -/
def valueAlongY (c c' : Corner K) (Y : K) : K :=
  hermite Y c.value (c.dzdy / 2) c'.value (c'.dzdy / 2)

/-- The `x` derivatives along the edge from corner `c` to corner `c'` in `y`. -/
def slopeAlongY (c c' : Corner K) (Y : K) : K :=
  hermite Y (c.dzdx / 2) (c.d2zdxdy / 4) (c'.dzdx / 2) (c'.d2zdxdy / 4)

/-- The values along the edge from corner `c` to corner `c'` in `x`. -/
def valueAlongX (c c' : Corner K) (X : K) : K :=
  hermite X c.value (c.dzdx / 2) c'.value (c'.dzdx / 2)

/-- The `y` derivatives along the edge from corner `c` to corner `c'` in `x`. -/
def slopeAlongX (c c' : Corner K) (X : K) : K :=
  hermite X (c.dzdy / 2) (c.d2zdxdy / 4) (c'.dzdy / 2) (c'.d2zdxdy / 4)

end Corner

/-- `lbb` is the cubic Hermite interpolant in `X` between the edge from `dos_two` to `tre_two` and
the edge from `dos_thr` to `tre_thr`. -/
theorem lbb_eq_hermiteX (p : Patch K) (X Y : K) :
    lbb (lbbCoefficients X Y) p =
      hermite X (p.corner00.valueAlongY p.corner01 Y) (p.corner00.slopeAlongY p.corner01 Y)
        (p.corner10.valueAlongY p.corner11 Y) (p.corner10.slopeAlongY p.corner11 Y) := by
  simp only [lbb, lbbCoefficients, hermite, Corner.valueAlongY, Corner.slopeAlongY,
    Patch.corner00_value, Patch.corner10_value, Patch.corner01_value, Patch.corner11_value]
  ring

/-- `lbb` is the cubic Hermite interpolant in `Y` between the edge from `dos_two` to `dos_thr` and
the edge from `tre_two` to `tre_thr`. -/
theorem lbb_eq_hermiteY (p : Patch K) (X Y : K) :
    lbb (lbbCoefficients X Y) p =
      hermite Y (p.corner00.valueAlongX p.corner10 X) (p.corner00.slopeAlongX p.corner10 X)
        (p.corner01.valueAlongX p.corner11 X) (p.corner01.slopeAlongX p.corner11 X) := by
  simp only [lbb, lbbCoefficients, hermite, Corner.valueAlongX, Corner.slopeAlongX,
    Patch.corner00_value, Patch.corner10_value, Patch.corner01_value, Patch.corner11_value]
  ring

/-! ## Two-valued stencils

`lbb`'s comment says that on binary images LBB acts as bicubic Hermite "with all first
derivatives ... at the input pixel locations set to zero": each corner is an end of its block range,
so the slope limit is zero, and the cross derivative is pinned to zero too. -/

theorem clampSlope_zero (d : K) : clampSlope d 0 = 0 := by
  unfold clampSlope
  rw [sign_mul_self, mul_zero]
  split_ifs with flat
  · exact abs_nonpos_iff.1 flat
  · rfl

/-- A corner whose value is an end of its block range has all its clamped derivatives zero. -/
theorem Corner.derivatives_eq_zero {c : Corner K} (low_le : c.low ≤ c.value)
    (le_high : c.value ≤ c.high) (pinned : c.u = 0 ∨ c.v = 0) :
    c.dzdx = 0 ∧ c.dzdy = 0 ∧ c.d2zdxdy = 0 := by
  have u_nonneg : 0 ≤ c.u := sub_nonneg.2 low_le
  have v_nonneg : 0 ≤ c.v := sub_nonneg.2 le_high
  have limit : c.slopeLimit = 0 := by
    rcases pinned with h | h <;> rw [Corner.slopeLimit, h]
    · rw [min_eq_left v_nonneg, mul_zero]
    · rw [min_eq_right u_nonneg, mul_zero]
  have dzdx : c.dzdx = 0 := by rw [Corner.dzdx, limit, clampSlope_zero]
  have dzdy : c.dzdy = 0 := by rw [Corner.dzdy, limit, clampSlope_zero]
  refine ⟨dzdx, dzdy, ?_⟩
  rw [Corner.d2zdxdy, dzdx, dzdy]
  rcases pinned with h | h <;>
  simp only [limitCross, h, add_zero, sub_zero, mul_zero, abs_zero, zero_sub, neg_zero]
  · exact le_antisymm (min_le_right _ _)
      (le_min (le_max_of_le_left (le_min (le_max_right _ _) (mul_nonneg (by norm_num) v_nonneg)))
        le_rfl)
  · exact le_antisymm (min_le_of_left_le (max_le (min_le_right _ _) le_rfl))
      (le_min (le_max_right _ _) (mul_nonneg (by norm_num) u_nonneg))

/-- Of three ordered values, each `a` or `b`, the middle one equals one of the others. -/
theorem pinned_of_twoValued {low value high a b : K} (below : low ≤ value) (above : value ≤ high)
    (hl : low = a ∨ low = b) (hv : value = a ∨ value = b) (hh : high = a ∨ high = b) :
    value - low = 0 ∨ high - value = 0 := by
  rcases hl with rfl | rfl <;> rcases hv with rfl | rfl <;> rcases hh with rfl | rfl <;>
  first | exact .inl (sub_self _) | exact .inr (sub_self _) |
    exact .inl (by linarith only [below, above])

/-- A corner whose value and block extrema are each `a` or `b` has all its clamped derivatives
zero. -/
theorem Corner.derivatives_eq_zero_of_twoValued {c : Corner K} {a b : K} (low_le : c.low ≤ c.value)
    (le_high : c.value ≤ c.high) (hl : c.low = a ∨ c.low = b) (hv : c.value = a ∨ c.value = b)
    (hh : c.high = a ∨ c.high = b) : c.dzdx = 0 ∧ c.dzdy = 0 ∧ c.d2zdxdy = 0 :=
  Corner.derivatives_eq_zero low_le le_high (pinned_of_twoValued low_le le_high hl hv hh)

/-- LBB on a stencil all of whose values are `lo` or `hi`, as on a binary image, is the bicubic
Hermite interpolant of the four corner values with all first and cross derivatives zero. -/
theorem lbb_twoValued {p : Patch K} {lo hi : K} (two : ∀ z ∈ p.values, z = lo ∨ z = hi)
    (X Y : K) :
    lbb (lbbCoefficients X Y) p =
      hermite X (hermite Y p.dosTwo 0 p.treTwo 0) 0 (hermite Y p.dosThr 0 p.treThr 0) 0 := by
  simp only [Patch.values, List.forall_mem_cons, List.not_mem_nil, false_implies, implies_true,
    and_true] at two
  obtain ⟨unoOne, unoTwo, unoThr, unoFou, dosOne, dosTwo, dosThr, dosFou, treOne, treTwo, treThr,
    treFou, quaOne, quaTwo, quaThr, quaFou⟩ := two
  -- the block extrema, nested `min`s and `max`s of stencil values, are `lo` or `hi` too
  have closed_min : ∀ {a b : K}, (a = lo ∨ a = hi) → (b = lo ∨ b = hi) →
      min a b = lo ∨ min a b = hi := by
    intro a b ha hb
    rcases min_choice a b with h | h <;> rw [h] <;> assumption
  have closed_max : ∀ {a b : K}, (a = lo ∨ a = hi) → (b = lo ∨ b = hi) →
      max a b = lo ∨ max a b = hi := by
    intro a b ha hb
    rcases max_choice a b with h | h <;> rw [h] <;> assumption
  obtain ⟨⟨dx00, dy00, dxy00⟩, ⟨dx10, dy10, dxy10⟩, ⟨dx01, dy01, dxy01⟩, ⟨dx11, dy11, dxy11⟩⟩ :
      (p.corner00.dzdx = 0 ∧ p.corner00.dzdy = 0 ∧ p.corner00.d2zdxdy = 0) ∧
      (p.corner10.dzdx = 0 ∧ p.corner10.dzdy = 0 ∧ p.corner10.d2zdxdy = 0) ∧
      (p.corner01.dzdx = 0 ∧ p.corner01.dzdy = 0 ∧ p.corner01.d2zdxdy = 0) ∧
      (p.corner11.dzdx = 0 ∧ p.corner11.dzdy = 0 ∧ p.corner11.d2zdxdy = 0) := by
    refine ⟨?_, ?_, ?_, ?_⟩ <;> apply Corner.derivatives_eq_zero_of_twoValued (a := lo) (b := hi) <;>
    simp only [Patch.corner00, Patch.corner10, Patch.corner01, Patch.corner11, Patch.extrema,
      min_le_iff, le_max_iff, le_refl, true_or, or_true] <;>
    apply_rules
  rw [lbb_eq_hermiteX]
  simp only [Corner.valueAlongY, Corner.slopeAlongY, Patch.corner00_value, Patch.corner10_value,
    Patch.corner01_value, Patch.corner11_value, dx00, dy00, dxy00, dx10, dy10, dxy10, dx01, dy01,
    dxy01, dx11, dy11, dxy11, zero_div]
  simp only [hermite, mul_zero, add_zero]

theorem lbb_twoValued_step :
    (∀ z ∈ (window (fun x _ => if x ≤ 0 then (0 : ℚ) else 1) 0 0 1 1).values, z = 0 ∨ z = 1) ∧
      lbb (lbbCoefficients (1 / 3) (3 / 4))
          (window (fun x _ => if x ≤ 0 then (0 : ℚ) else 1) 0 0 1 1) =
        hermite (1 / 3) (hermite (3 / 4) 0 0 0 0) 0 (hermite (3 / 4) 1 0 1 0) 0 :=
  have two : ∀ z ∈ (window (fun x _ => if x ≤ 0 then (0 : ℚ) else 1) 0 0 1 1).values,
      z = 0 ∨ z = 1 := by
    simp only [Patch.values, window, List.forall_mem_cons, List.not_mem_nil, false_implies,
      implies_true, and_true]
    norm_num
  ⟨two, lbb_twoValued two _ _⟩

/-- What is left of the difference of two Hermite cubics that start with the same value and
opposite slopes, the second read backwards, after dividing by `t²`. -/
def hermiteQuotientZero (t a₀ d₀ a₁ d₁ b₁ e₁ : K) : K :=
  4 * t * a₀ - 4 * d₀ + (3 - 2 * t) * a₁ + (t - 1) * d₁ - (3 + 2 * t) * b₁ + (t + 1) * e₁

/-- What is left of the difference of two Hermite cubics that end with the same value and
opposite slopes, the second read backwards from `2`, after dividing by `(t - 1)²`. -/
def hermiteQuotientOne (t a₀ d₀ b₀ e₀ a₁ d₁ : K) : K :=
  (1 + 2 * t) * a₀ + t * d₀ - (5 - 2 * t) * b₀ - (2 - t) * e₀ - 4 * (t - 1) * a₁ + 4 * d₁

theorem hermite_sub_reflect_zero (t a₀ d₀ a₁ d₁ b₁ e₁ : K) :
    hermite t a₀ d₀ a₁ d₁ - hermite (-t) a₀ (-d₀) b₁ e₁ =
      t ^ 2 * hermiteQuotientZero t a₀ d₀ a₁ d₁ b₁ e₁ := by
  unfold hermite hermiteQuotientZero; ring

theorem hermite_sub_reflect_one (t a₀ d₀ b₀ e₀ a₁ d₁ : K) :
    hermite t a₀ d₀ a₁ d₁ - hermite (2 - t) b₀ e₀ a₁ (-d₁) =
      (t - 1) ^ 2 * hermiteQuotientOne t a₀ d₀ b₀ e₀ a₁ d₁ := by
  unfold hermite hermiteQuotientOne; ring

/-- A corner read with its `x` axis reversed: its raw `x` and cross derivatives change sign. -/
def Corner.mirrorX (c : Corner K) : Corner K :=
  { c with dzdxi := -c.dzdxi, d2zdxdyi := -c.d2zdxdyi }

/-- A corner read with its `y` axis reversed: its raw `y` and cross derivatives change sign. -/
def Corner.mirrorY (c : Corner K) : Corner K :=
  { c with dzdyi := -c.dzdyi, d2zdxdyi := -c.d2zdxdyi }

/-- The slope limiter is odd, for a non-negative limit. -/
theorem clampSlope_neg (d : K) {limit : K} (nonneg : 0 ≤ limit) :
    clampSlope (-d) limit = -clampSlope d limit := by
  unfold clampSlope
  rw [sign_mul_self, sign_mul_self, abs_neg]
  split_ifs with within
  · rfl
  · unfold sign
    rcases lt_trichotomy d 0 with neg | zero | pos
    · rw [if_pos (by linarith only [neg]), if_neg (not_le.2 neg)]; ring
    · rw [zero, abs_zero] at within; exact absurd nonneg within
    · rw [if_neg (by linarith only [pos]), if_pos pos.le]; ring

theorem min_max_eq_max_min {x lo hi : K} (ordered : lo ≤ hi) :
    min (max x lo) hi = max lo (min x hi) := by
  rw [max_min_distrib_left, max_eq_right ordered, max_comm]

/-- Where its limits are in order, the four cross-derivative limiters clamp into one interval. -/
theorem limitCross_eq_clamp {q S D U V : K} (h12 : |S| - U ≤ V - |S|) (h14 : |S| - U ≤ U - |D|)
    (h34 : |D| - V ≤ U - |D|) :
    limitCross q S D U V = max (max (|S| - U) (|D| - V)) (min q (min (V - |S|) (U - |D|))) := by
  simp only [limitCross]
  rw [min_max_eq_max_min h12, max_assoc, max_comm (min _ _), ← max_assoc, max_comm (max _ _),
    min_max_eq_max_min (max_le h14 h34), min_assoc]

/-- Exchanging the magnitudes of the slopes' sum and difference mirrors the cross-derivative
limiters' interval, so an opposite cross derivative is limited to the opposite value. -/
theorem limitCross_mirror {q S D S' D' U V : K} (hS : |S'| = |D|) (hD : |D'| = |S|)
    (h12 : |S| - U ≤ V - |S|) (h14 : |S| - U ≤ U - |D|) (h32 : |D| - V ≤ V - |S|)
    (h34 : |D| - V ≤ U - |D|) :
    limitCross (-q) S' D' U V = -limitCross q S D U V := by
  rw [limitCross_eq_clamp h12 h14 h34, limitCross_eq_clamp (by rw [hS]; linarith only [h34])
    (by rw [hS, hD]; linarith only [h14]) (by rw [hD]; linarith only [h12]), hS, hD, neg_sup,
    neg_inf, neg_inf, neg_sup, neg_sub, neg_sub, neg_sub, neg_sub, min_comm (min _ _) (max _ _),
    min_max_eq_max_min (max_le (le_min (by linarith only [h12]) (by linarith only [h32]))
      (le_min (by linarith only [h14]) (by linarith only [h34]))),
    max_comm (|S| - V), min_comm (U - |S|)]

namespace Corner.Fits

variable {c c' : Corner K}

theorem mirrorX_dzdx (fits : c.Fits) : c.mirrorX.dzdx = -c.dzdx :=
  clampSlope_neg _ fits.slopeLimit_nonneg

theorem mirrorY_dzdy (fits : c.Fits) : c.mirrorY.dzdy = -c.dzdy :=
  clampSlope_neg _ fits.slopeLimit_nonneg

/-- Reversing the `x` axis of a fitting corner changes the sign of its limited cross derivative. -/
theorem mirrorX_d2zdxdy (fits : c.Fits) : c.mirrorX.d2zdxdy = -c.d2zdxdy := by
  obtain ⟨h12, h14, h32, h34⟩ := fits.crossLimits_ordered
  have dzdy : c.mirrorX.dzdy = c.dzdy := rfl
  unfold Corner.d2zdxdy
  rw [fits.mirrorX_dzdx, dzdy]
  exact limitCross_mirror (by rw [← abs_neg]; ring_nf) (by rw [← abs_neg]; ring_nf) h12 h14 h32 h34

/-- Reversing the `y` axis of a fitting corner changes the sign of its limited cross derivative. -/
theorem mirrorY_d2zdxdy (fits : c.Fits) : c.mirrorY.d2zdxdy = -c.d2zdxdy := by
  obtain ⟨h12, h14, h32, h34⟩ := fits.crossLimits_ordered
  have dzdx : c.mirrorY.dzdx = c.dzdx := rfl
  unfold Corner.d2zdxdy
  rw [fits.mirrorY_dzdy, dzdx]
  exact limitCross_mirror (by ring_nf) (by ring_nf) h12 h14 h32 h34

/-- The `x` derivatives along an edge in `y` of fitting corners change sign with the `x` axis. -/
theorem slopeAlongY_mirrorX (fits : c.Fits) (fits' : c'.Fits) (Y : K) :
    c.mirrorX.slopeAlongY c'.mirrorX Y = -c.slopeAlongY c' Y := by
  rw [slopeAlongY, slopeAlongY, fits.mirrorX_dzdx, fits.mirrorX_d2zdxdy, fits'.mirrorX_dzdx,
    fits'.mirrorX_d2zdxdy, neg_div, neg_div, neg_div, neg_div, hermite_neg]

/-- The `y` derivatives along an edge in `x` of fitting corners change sign with the `y` axis. -/
theorem slopeAlongX_mirrorY (fits : c.Fits) (fits' : c'.Fits) (X : K) :
    c.mirrorY.slopeAlongX c'.mirrorY X = -c.slopeAlongX c' X := by
  rw [slopeAlongX, slopeAlongX, fits.mirrorY_dzdy, fits.mirrorY_d2zdxdy, fits'.mirrorY_dzdy,
    fits'.mirrorY_d2zdxdy, neg_div, neg_div, neg_div, neg_div, hermite_neg]

end Corner.Fits

theorem Corner.valueAlongY_mirrorX (c c' : Corner K) (Y : K) :
    c.mirrorX.valueAlongY c'.mirrorX Y = c.valueAlongY c' Y := rfl

theorem Corner.valueAlongX_mirrorY (c c' : Corner K) (X : K) :
    c.mirrorY.valueAlongX c'.mirrorY X = c.valueAlongX c' X := rfl

section Patches

variable {P P' : Patch K}

/-- Two patches whose left edges hold the same corners, the second's read with the `x` axis
reversed, differ by `X²` times a polynomial when the second is read at `-X`. -/
theorem lbb_sub_mirrorX_left (h00 : P'.corner00 = P.corner00.mirrorX)
    (h01 : P'.corner01 = P.corner01.mirrorX) (X Y : K) :
    lbb (lbbCoefficients X Y) P - lbb (lbbCoefficients (-X) Y) P' =
      X ^ 2 * hermiteQuotientZero X (P.corner00.valueAlongY P.corner01 Y)
        (P.corner00.slopeAlongY P.corner01 Y) (P.corner10.valueAlongY P.corner11 Y)
        (P.corner10.slopeAlongY P.corner11 Y) (P'.corner10.valueAlongY P'.corner11 Y)
        (P'.corner10.slopeAlongY P'.corner11 Y) := by
  rw [lbb_eq_hermiteX, lbb_eq_hermiteX P', h00, h01, Corner.valueAlongY_mirrorX,
    P.corner00_fits.slopeAlongY_mirrorX P.corner01_fits]
  exact hermite_sub_reflect_zero _ _ _ _ _ _ _

/-- Two patches whose right edges hold the same corners, the second's read with the `x` axis
reversed, differ by `(X - 1)²` times a polynomial when the second is read at `2 - X`. -/
theorem lbb_sub_mirrorX_right (column : P.treFou ∈ uIcc P.dosFou P.quaFou)
    (h10 : P'.corner10 = P.corner10.mirrorX) (h11 : P'.corner11 = P.corner11.mirrorX) (X Y : K) :
    lbb (lbbCoefficients X Y) P - lbb (lbbCoefficients (2 - X) Y) P' =
      (X - 1) ^ 2 * hermiteQuotientOne X (P.corner00.valueAlongY P.corner01 Y)
        (P.corner00.slopeAlongY P.corner01 Y) (P'.corner00.valueAlongY P'.corner01 Y)
        (P'.corner00.slopeAlongY P'.corner01 Y) (P.corner10.valueAlongY P.corner11 Y)
        (P.corner10.slopeAlongY P.corner11 Y) := by
  rw [lbb_eq_hermiteX, lbb_eq_hermiteX P', h10, h11, Corner.valueAlongY_mirrorX,
    P.corner10_fits.slopeAlongY_mirrorX (P.corner11_fits column)]
  exact hermite_sub_reflect_one _ _ _ _ _ _ _

/-- Two patches whose top edges hold the same corners, the second's read with the `y` axis
reversed, differ by `Y²` times a polynomial when the second is read at `-Y`. -/
theorem lbb_sub_mirrorY_top (h00 : P'.corner00 = P.corner00.mirrorY)
    (h10 : P'.corner10 = P.corner10.mirrorY) (X Y : K) :
    lbb (lbbCoefficients X Y) P - lbb (lbbCoefficients X (-Y)) P' =
      Y ^ 2 * hermiteQuotientZero Y (P.corner00.valueAlongX P.corner10 X)
        (P.corner00.slopeAlongX P.corner10 X) (P.corner01.valueAlongX P.corner11 X)
        (P.corner01.slopeAlongX P.corner11 X) (P'.corner01.valueAlongX P'.corner11 X)
        (P'.corner01.slopeAlongX P'.corner11 X) := by
  rw [lbb_eq_hermiteY, lbb_eq_hermiteY P', h00, h10, Corner.valueAlongX_mirrorY,
    P.corner00_fits.slopeAlongX_mirrorY P.corner10_fits]
  exact hermite_sub_reflect_zero _ _ _ _ _ _ _

/-- Two patches whose bottom edges hold the same corners, the second's read with the `y` axis
reversed, differ by `(Y - 1)²` times a polynomial when the second is read at `2 - Y`. -/
theorem lbb_sub_mirrorY_bottom (column : P.treFou ∈ uIcc P.dosFou P.quaFou)
    (h01 : P'.corner01 = P.corner01.mirrorY) (h11 : P'.corner11 = P.corner11.mirrorY) (X Y : K) :
    lbb (lbbCoefficients X Y) P - lbb (lbbCoefficients X (2 - Y)) P' =
      (Y - 1) ^ 2 * hermiteQuotientOne Y (P.corner00.valueAlongX P.corner10 X)
        (P.corner00.slopeAlongX P.corner10 X) (P'.corner00.valueAlongX P'.corner10 X)
        (P'.corner00.slopeAlongX P'.corner10 X) (P.corner01.valueAlongX P.corner11 X)
        (P.corner01.slopeAlongX P.corner11 X) := by
  rw [lbb_eq_hermiteY, lbb_eq_hermiteY P', h01, h11, Corner.valueAlongX_mirrorY,
    P.corner01_fits.slopeAlongX_mirrorY (P.corner11_fits column)]
  exact hermite_sub_reflect_one _ _ _ _ _ _ _

end Patches

/-! ## The windows on the two sides of a seam -/

section Windows

variable (R : Int → Int → K)

/-- At a pixel column, the windows read in the two directions share the corners on the column,
read with the `x` axis reversed. -/
theorem window_signX_corners (u v sy : Int) :
    (window R u v (-1) sy).corner00 = (window R u v 1 sy).corner00.mirrorX ∧
      (window R u v (-1) sy).corner01 = (window R u v 1 sy).corner01.mirrorX := by
  constructor <;>
  simp only [Patch.corner00, Patch.corner01, Corner.mirrorX, Corner.mk.injEq, window,
    sub_neg_eq_add, ← sub_eq_add_neg, mul_neg, mul_one] <;>
  refine ⟨trivial, ?_, ?_, by ring, trivial, by ring⟩ <;>
  simp only [Patch.extrema] <;> ac_rfl

/-- Halfway between two pixel columns, the windows of the left and right pixels share the corners
on that line, read with the `x` axis reversed. -/
theorem window_anchorX_corners (u v sy : Int)
    (near : R u (v + sy) ∈ uIcc (R u v) (R u (v + 2 * sy)))
    (far : R (u + 2) (v + sy) ∈ uIcc (R (u + 2) v) (R (u + 2) (v + 2 * sy))) :
    (window R (u + 2) v (-1) sy).corner10 = (window R u v 1 sy).corner10.mirrorX ∧
      (window R (u + 2) v (-1) sy).corner11 = (window R u v 1 sy).corner11.mirrorX := by
  have back : u + 2 + -1 = u + 1 := by ring
  have twice_back : u + 2 + 2 * -1 = u := by ring
  obtain ⟨min11, max11⟩ := (window R u v 1 sy).extrema11_of_mem_uIcc near
  obtain ⟨min11', max11'⟩ := (window R (u + 2) v (-1) sy).extrema11_of_mem_uIcc far
  constructor
  · simp only [Patch.corner10, Corner.mirrorX, Corner.mk.injEq, Patch.extrema, window, back,
      twice_back, mul_one]
    refine ⟨trivial, ?_, ?_, by ring, trivial, by ring⟩ <;> ac_rfl
  · simp only [Patch.corner11, Corner.mirrorX, Corner.mk.injEq, min11, max11, min11', max11']
    simp only [window, back, twice_back, mul_one]
    refine ⟨trivial, ?_, ?_, by ring, trivial, by ring⟩ <;> ac_rfl

/-- At a pixel row, the windows read in the two directions share the corners on the row, read
with the `y` axis reversed. -/
theorem window_signY_corners (u v sx : Int) :
    (window R u v sx (-1)).corner00 = (window R u v sx 1).corner00.mirrorY ∧
      (window R u v sx (-1)).corner10 = (window R u v sx 1).corner10.mirrorY := by
  constructor <;>
  simp only [Patch.corner00, Patch.corner10, Corner.mirrorY, Corner.mk.injEq, window,
    sub_neg_eq_add, ← sub_eq_add_neg, mul_neg, mul_one] <;>
  refine ⟨trivial, ?_, ?_, trivial, by ring, by ring⟩ <;>
  simp only [Patch.extrema] <;> ac_rfl

/-- Halfway between two pixel rows, the window of the upper pixel read downward and the window of
the lower pixel read upward share the corners on that line, read with the `y` axis reversed. -/
theorem window_anchorY_corners (u v sx : Int) :
    (window R u (v + 2) sx (-1)).corner01 = (window R u v sx 1).corner01.mirrorY ∧
      (window R u (v + 2) sx (-1)).corner11 = (window R u v sx 1).corner11.mirrorY := by
  have back : v + 2 + -1 = v + 1 := by ring
  have twice_back : v + 2 + 2 * -1 = v := by ring
  constructor <;>
  simp only [Patch.corner01, Patch.corner11, Corner.mirrorY, Corner.mk.injEq, Patch.extrema,
    window, back, twice_back, mul_one] <;>
  refine ⟨trivial, ?_, ?_, trivial, by ring, by ring⟩ <;> ac_rfl

end Windows

end Lohalo
end Gegl
