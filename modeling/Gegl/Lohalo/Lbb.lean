import Gegl.Lohalo.Subdivision

/-!
# LBB, locally bounded bicubic

`lbb` evaluates a Hermite bicubic patch over the centre square of its 4x4 stencil, with its
derivatives clamped so that the patch stays in the range of the 3x3 block at each corner. As the
source's comment argues, the patch is a sum of corner shares, each a non-negative weight times a
mean of four vertices that the clamps keep in the corner's block range.
-/

namespace Gegl
namespace Lohalo

open Set

variable {K : Type} [LinearOrderedField K]

/-- `LOHALO_SIGN (x)`. -/
def sign (x : K) : K := if x ≥ 0 then 1 else -1

/-- A clamped first derivative, `(sign * d <= limit) ? d : sign * limit` with
`sign = LOHALO_SIGN (d)`. -/
def clampSlope (d limit : K) : K := if sign d * d ≤ limit then d else sign d * limit

/-- The four cross-derivative limiters applied in turn to `quad_d2zdxdy..i`; `LOHALO_ABS`,
`LOHALO_MIN` and `LOHALO_MAX` are `|·|`, `min` and `max`. -/
def limitCross (quad twelveSum twelveDif uTimes36 vTimes36 : K) : K :=
  let twelveAbsSum := |twelveSum|
  let firstLimit := twelveAbsSum - uTimes36
  let quadii := max quad firstLimit
  let secondLimit := vTimes36 - twelveAbsSum
  let quadiii := min quadii secondLimit
  let twelveAbsDif := |twelveDif|
  let thirdLimit := twelveAbsDif - vTimes36
  let quadiiii := max quadiii thirdLimit
  let fourthLimit := uTimes36 - twelveAbsDif
  min quadiiii fourthLimit

/-- The data of one corner of the patch: its value, the minimum and maximum of its block, its
doubled first derivatives and its quadrupled cross derivative, before clamping. -/
structure Corner (K : Type) where
  value : K
  low : K
  high : K
  dzdxi : K
  dzdyi : K
  d2zdxdyi : K

namespace Corner

variable (c : Corner K)

/-- `u..`, the distance to the block minimum. -/
def u : K := c.value - c.low

/-- `v..`, the distance to the block maximum. -/
def v : K := c.high - c.value

/-- `dble_slopelimit_..`. -/
def slopeLimit : K := 6 * min c.u c.v

/-- `dble_dzdx..`. -/
def dzdx : K := clampSlope c.dzdxi c.slopeLimit

/-- `dble_dzdy..`. -/
def dzdy : K := clampSlope c.dzdyi c.slopeLimit

/-- `quad_d2zdxdy..`. -/
def d2zdxdy : K :=
  limitCross c.d2zdxdyi (6 * (c.dzdx + c.dzdy)) (6 * (c.dzdx - c.dzdy)) (36 * c.u) (36 * c.v)

end Corner

/-- The minima and maxima of the four 3x3 blocks. -/
@[ext]
structure Extrema (K : Type) where
  min00 : K
  max00 : K
  min10 : K
  max10 : K
  min01 : K
  max01 : K
  min11 : K
  max11 : K

namespace Patch

variable (p : Patch K)

/-- The block extrema by the source's 34 comparisons, `m13` and `M13` in their shortened form. -/
def extrema : Extrema K :=
  let m1 := min p.dosTwo p.dosThr
  let M1 := max p.dosTwo p.dosThr
  let m2 := min p.treTwo p.treThr
  let M2 := max p.treTwo p.treThr
  let m4 := min p.quaTwo p.quaThr
  let M4 := max p.quaTwo p.quaThr
  let m3 := min p.unoTwo p.unoThr
  let M3 := max p.unoTwo p.unoThr
  let m5 := min m1 m2
  let M5 := max M1 M2
  let m6 := min p.dosOne p.treOne
  let M6 := max p.dosOne p.treOne
  let m7 := min p.dosFou p.treFou
  let M7 := max p.dosFou p.treFou
  let m13 := min p.dosFou p.quaFou
  let M13 := max p.dosFou p.quaFou
  let m9 := min m5 m4
  let M9 := max M5 M4
  let m11 := min m6 p.quaOne
  let M11 := max M6 p.quaOne
  let m10 := min m6 p.unoOne
  let M10 := max M6 p.unoOne
  let m8 := min m5 m3
  let M8 := max M5 M3
  let m12 := min m7 p.unoFou
  let M12 := max M7 p.unoFou
  { min00 := min m8 m10, max00 := max M8 M10, min10 := min m8 m12, max10 := max M8 M12,
    min01 := min m9 m11, max01 := max M9 M11, min11 := min m9 m13, max11 := max M9 M13 }

/-- The corner at `dos_two`. -/
def corner00 : Corner K :=
  ⟨p.dosTwo, p.extrema.min00, p.extrema.max00, p.dosThr - p.dosOne, p.treTwo - p.unoTwo,
    p.unoOne - p.unoThr + (p.treThr - p.treOne)⟩

/-- The corner at `dos_thr`. -/
def corner10 : Corner K :=
  ⟨p.dosThr, p.extrema.min10, p.extrema.max10, p.dosFou - p.dosTwo, p.treThr - p.unoThr,
    p.unoTwo - p.unoFou + (p.treFou - p.treTwo)⟩

/-- The corner at `tre_two`. -/
def corner01 : Corner K :=
  ⟨p.treTwo, p.extrema.min01, p.extrema.max01, p.treThr - p.treOne, p.quaTwo - p.dosTwo,
    p.quaThr - p.quaOne - (p.dosThr - p.dosOne)⟩

/-- The corner at `tre_thr`. -/
def corner11 : Corner K :=
  ⟨p.treThr, p.extrema.min11, p.extrema.max11, p.treFou - p.treTwo, p.quaThr - p.dosThr,
    p.quaFou - p.quaTwo - (p.dosFou - p.dosTwo)⟩

end Patch

/-- The sixteen Hermite coefficients `c00` to `c11dxdy` that `lbb` receives. -/
structure Coefficients (K : Type) where
  c00 : K
  c10 : K
  c01 : K
  c11 : K
  c00dx : K
  c10dx : K
  c01dx : K
  c11dx : K
  c00dy : K
  c10dy : K
  c01dy : K
  c11dy : K
  c00dxdy : K
  c10dxdy : K
  c01dxdy : K
  c11dxdy : K

/-- `lbb`: the value part, half the first-derivative part and a quarter of the cross-derivative
part of the Hermite patch. -/
def lbb (c : Coefficients K) (p : Patch K) : K :=
  let newval1 := c.c00 * p.dosTwo + c.c10 * p.dosThr + c.c01 * p.treTwo + c.c11 * p.treThr
  let newval2 :=
    c.c00dx * p.corner00.dzdx + c.c10dx * p.corner10.dzdx + c.c01dx * p.corner01.dzdx +
      c.c11dx * p.corner11.dzdx + c.c00dy * p.corner00.dzdy + c.c10dy * p.corner10.dzdy +
      c.c01dy * p.corner01.dzdy + c.c11dy * p.corner11.dzdy
  let newval3 :=
    c.c00dxdy * p.corner00.d2zdxdy + c.c10dxdy * p.corner10.d2zdxdy +
      c.c01dxdy * p.corner01.d2zdxdy + c.c11dxdy * p.corner11.d2zdxdy
  newval1 + 1 / 2 * newval2 + 1 / 4 * newval3

/-- The coefficients `gegl_sampler_lohalo_get` computes from `xp1over2` and `yp1over2`, twice the
distances of the sampling point from the anchor in the reflected frame. -/
def lbbCoefficients (xp1over2 yp1over2 : K) : Coefficients K :=
  let xm1over2 := xp1over2 + (-1)
  let onepx := 1 / 2 + xp1over2
  let onemx := 3 / 2 - xp1over2
  let xp1over2sq := xp1over2 * xp1over2
  let ym1over2 := yp1over2 + (-1)
  let onepy := 1 / 2 + yp1over2
  let onemy := 3 / 2 - yp1over2
  let yp1over2sq := yp1over2 * yp1over2
  let xm1over2sq := xm1over2 * xm1over2
  let ym1over2sq := ym1over2 * ym1over2
  let twice1px := onepx + onepx
  let twice1py := onepy + onepy
  let twice1mx := onemx + onemx
  let twice1my := onemy + onemy
  let xm1over2sqTimesYm1over2sq := xm1over2sq * ym1over2sq
  let xp1over2sqTimesYm1over2sq := xp1over2sq * ym1over2sq
  let xp1over2sqTimesYp1over2sq := xp1over2sq * yp1over2sq
  let xm1over2sqTimesYp1over2sq := xm1over2sq * yp1over2sq
  let fourTimes1pxTimes1py := twice1px * twice1py
  let fourTimes1mxTimes1py := twice1mx * twice1py
  let twiceXp1over2Times1py := xp1over2 * twice1py
  let twiceXm1over2Times1py := xm1over2 * twice1py
  let twiceXm1over2Times1my := xm1over2 * twice1my
  let twiceXp1over2Times1my := xp1over2 * twice1my
  let fourTimes1mxTimes1my := twice1mx * twice1my
  let fourTimes1pxTimes1my := twice1px * twice1my
  let twice1pxTimesYm1over2 := twice1px * ym1over2
  let twice1mxTimesYm1over2 := twice1mx * ym1over2
  let xp1over2TimesYm1over2 := xp1over2 * ym1over2
  let xm1over2TimesYm1over2 := xm1over2 * ym1over2
  let xm1over2TimesYp1over2 := xm1over2 * yp1over2
  let xp1over2TimesYp1over2 := xp1over2 * yp1over2
  let twice1mxTimesYp1over2 := twice1mx * yp1over2
  let twice1pxTimesYp1over2 := twice1px * yp1over2
  { c00 := fourTimes1pxTimes1py * xm1over2sqTimesYm1over2sq,
    c00dx := twiceXp1over2Times1py * xm1over2sqTimesYm1over2sq,
    c00dy := twice1pxTimesYp1over2 * xm1over2sqTimesYm1over2sq,
    c00dxdy := xp1over2TimesYp1over2 * xm1over2sqTimesYm1over2sq,
    c10 := fourTimes1mxTimes1py * xp1over2sqTimesYm1over2sq,
    c10dx := twiceXm1over2Times1py * xp1over2sqTimesYm1over2sq,
    c10dy := twice1mxTimesYp1over2 * xp1over2sqTimesYm1over2sq,
    c10dxdy := xm1over2TimesYp1over2 * xp1over2sqTimesYm1over2sq,
    c01 := fourTimes1pxTimes1my * xm1over2sqTimesYp1over2sq,
    c01dx := twiceXp1over2Times1my * xm1over2sqTimesYp1over2sq,
    c01dy := twice1pxTimesYm1over2 * xm1over2sqTimesYp1over2sq,
    c01dxdy := xp1over2TimesYm1over2 * xm1over2sqTimesYp1over2sq,
    c11 := fourTimes1mxTimes1my * xp1over2sqTimesYp1over2sq,
    c11dx := twiceXm1over2Times1my * xp1over2sqTimesYp1over2sq,
    c11dy := twice1mxTimesYm1over2 * xp1over2sqTimesYp1over2sq,
    c11dxdy := xm1over2TimesYm1over2 * xp1over2sqTimesYp1over2sq }

/-- A clamped derivative is no larger than the limit nor than the raw derivative. -/
theorem abs_clampSlope_le (d : K) {limit : K} (nonneg : 0 ≤ limit) :
    |clampSlope d limit| ≤ min limit |d| := by
  unfold clampSlope sign
  rcases le_or_lt 0 d with up | down
  · simp only [ge_iff_le, up, if_true, one_mul]
    split_ifs with small
    · rw [abs_of_nonneg up]; exact le_min small le_rfl
    · rw [abs_of_nonneg nonneg, abs_of_nonneg up]; exact le_min le_rfl (by linarith)
  · simp only [ge_iff_le, not_le.2 down, if_false, neg_one_mul]
    split_ifs with small
    · rw [abs_of_neg down]; exact le_min small le_rfl
    · rw [abs_neg, abs_of_nonneg nonneg, abs_of_neg down]; exact le_min le_rfl (by linarith)

/-- When the four cross-derivative limits leave an interval, the limiters land in it. -/
theorem limitCross_mem_Icc (q : K) {twelveSum twelveDif uTimes36 vTimes36 : K}
    (h12 : |twelveSum| - uTimes36 ≤ vTimes36 - |twelveSum|)
    (h14 : |twelveSum| - uTimes36 ≤ uTimes36 - |twelveDif|)
    (h32 : |twelveDif| - vTimes36 ≤ vTimes36 - |twelveSum|)
    (h34 : |twelveDif| - vTimes36 ≤ uTimes36 - |twelveDif|) :
    limitCross q twelveSum twelveDif uTimes36 vTimes36 ∈
      Icc (max (|twelveSum| - uTimes36) (|twelveDif| - vTimes36))
        (min (vTimes36 - |twelveSum|) (uTimes36 - |twelveDif|)) :=
  ⟨max_le (le_min (le_max_of_le_left (le_min (le_max_right _ _) h12)) h14)
      (le_min (le_max_right _ _) h34),
    le_min (min_le_of_left_le (max_le (min_le_right _ _) h32)) (min_le_right _ _)⟩

theorem abs_add_add_abs_sub_le {a b bound : K} (ha : |a| ≤ bound) (hb : |b| ≤ bound) :
    |a + b| + |a - b| ≤ 2 * bound := by
  rcases abs_le.1 ha with ⟨ha₁, ha₂⟩
  rcases abs_le.1 hb with ⟨hb₁, hb₂⟩
  rcases abs_cases (a + b) with ⟨sum, -⟩ | ⟨sum, -⟩ <;>
  rcases abs_cases (a - b) with ⟨dif, -⟩ | ⟨dif, -⟩ <;> linarith

/-- What the bound needs of a corner: its value and both ends of each raw first derivative lie
in its block range. -/
structure Corner.Fits (c : Corner K) : Prop where
  low_le : c.low ≤ c.value
  le_high : c.value ≤ c.high
  dzdxi_le : |c.dzdxi| ≤ c.high - c.low
  dzdyi_le : |c.dzdyi| ≤ c.high - c.low

theorem Corner.fits_of_mem {c : Corner K} {x₁ x₂ y₁ y₂ : K} (dx : c.dzdxi = x₁ - x₂)
    (dy : c.dzdyi = y₁ - y₂) (value : c.value ∈ Icc c.low c.high) (hx₁ : x₁ ∈ Icc c.low c.high)
    (hx₂ : x₂ ∈ Icc c.low c.high) (hy₁ : y₁ ∈ Icc c.low c.high) (hy₂ : y₂ ∈ Icc c.low c.high) :
    c.Fits :=
  ⟨value.1, value.2, dx ▸ abs_sub_le_iff.2 ⟨by linarith [hx₁.2, hx₂.1], by linarith [hx₁.1, hx₂.2]⟩,
    dy ▸ abs_sub_le_iff.2 ⟨by linarith [hy₁.2, hy₂.1], by linarith [hy₁.1, hy₂.2]⟩⟩

/-- A derivative clamped at a fitting corner is at most six times the distance to either end of
the block range. -/
theorem Corner.Fits.slopeLimit_nonneg {c : Corner K} (fits : c.Fits) : 0 ≤ c.slopeLimit :=
  mul_nonneg (by norm_num) (le_min (sub_nonneg.2 fits.low_le) (sub_nonneg.2 fits.le_high))

theorem Corner.Fits.abs_clampSlope_le {c : Corner K} (fits : c.Fits) {d : K}
    (raw : |d| ≤ c.high - c.low) :
    |clampSlope d c.slopeLimit| ≤ 6 * min c.u c.v ∧ |clampSlope d c.slopeLimit| ≤ c.u + c.v := by
  have clamp := Lohalo.abs_clampSlope_le d fits.slopeLimit_nonneg
  have range : c.u + c.v = c.high - c.low := by unfold Corner.u Corner.v; ring
  exact ⟨clamp.trans (min_le_left _ _), range ▸ (clamp.trans (min_le_right _ _)).trans raw⟩

theorem abs_six_mul (x : K) : |6 * x| = 6 * |x| := by
  rw [abs_mul, abs_of_pos (by norm_num : (0 : K) < 6)]

/-- A step from a corner's value down by at most `u` or up by at most `v` stays in its block
range. -/
theorem Corner.add_mem_Icc (c : Corner K) {w : K} (lo : -c.u ≤ w) (hi : w ≤ c.v) :
    c.value + w ∈ Icc c.low c.high := by
  unfold Corner.u at lo; unfold Corner.v at hi
  exact ⟨by linarith only [lo], by linarith only [hi]⟩

/-- At a fitting corner the slope limits keep the four cross-derivative limits in order: each
lower limit is at most each upper limit. -/
theorem Corner.Fits.crossLimits_ordered {c : Corner K} (fits : c.Fits) :
    |6 * (c.dzdx + c.dzdy)| - 36 * c.u ≤ 36 * c.v - |6 * (c.dzdx + c.dzdy)| ∧
      |6 * (c.dzdx + c.dzdy)| - 36 * c.u ≤ 36 * c.u - |6 * (c.dzdx - c.dzdy)| ∧
      |6 * (c.dzdx - c.dzdy)| - 36 * c.v ≤ 36 * c.v - |6 * (c.dzdx + c.dzdy)| ∧
      |6 * (c.dzdx - c.dzdy)| - 36 * c.v ≤ 36 * c.u - |6 * (c.dzdx - c.dzdy)| := by
  obtain ⟨dx_limit, dx_range⟩ := fits.abs_clampSlope_le fits.dzdxi_le
  obtain ⟨dy_limit, dy_range⟩ := fits.abs_clampSlope_le fits.dzdyi_le
  change |c.dzdx| ≤ _ at dx_limit dx_range
  change |c.dzdy| ≤ _ at dy_limit dy_range
  have u_nonneg : 0 ≤ c.u := sub_nonneg.2 fits.low_le
  have v_nonneg : 0 ≤ c.v := sub_nonneg.2 fits.le_high
  have sum := abs_add c.dzdx c.dzdy
  have dif := abs_sub c.dzdx c.dzdy
  have both := abs_add_add_abs_sub_le dx_limit dy_limit
  rw [abs_six_mul, abs_six_mul]
  exact ⟨by linarith only [sum, dx_range, dy_range, u_nonneg, v_nonneg],
    by linarith only [both, min_le_left c.u c.v], by linarith only [both, min_le_right c.u c.v],
    by linarith only [dif, dx_range, dy_range, u_nonneg, v_nonneg]⟩

/-- The vertices of a fitting corner's share lie in its block range, for either orientation of
each axis. -/
theorem Corner.Fits.vertices_mem {c : Corner K} (fits : c.Fits) {σ τ : K} (hσ : σ = 1 ∨ σ = -1)
    (hτ : τ = 1 ∨ τ = -1) :
    c.value + σ * c.dzdx / 6 ∈ Icc c.low c.high ∧ c.value + τ * c.dzdy / 6 ∈ Icc c.low c.high ∧
      c.value + (6 * σ * c.dzdx + 6 * τ * c.dzdy + σ * τ * c.d2zdxdy) / 36 ∈
        Icc c.low c.high := by
  have dx_limit := (fits.abs_clampSlope_le fits.dzdxi_le).1
  have dy_limit := (fits.abs_clampSlope_le fits.dzdyi_le).1
  change |c.dzdx| ≤ _ at dx_limit
  change |c.dzdy| ≤ _ at dy_limit
  have m_le_u := min_le_left c.u c.v
  have m_le_v := min_le_right c.u c.v
  -- an edge vertex moves by a sixth of a derivative the slope limiter clamped
  have edge : ∀ {σ d : K}, (σ = 1 ∨ σ = -1) → |d| ≤ 6 * min c.u c.v →
      c.value + σ * d / 6 ∈ Icc c.low c.high := by
    intro σ d hσ hd
    have : |σ * d| ≤ 6 * min c.u c.v := by rcases hσ with rfl | rfl <;> simpa using hd
    obtain ⟨lo, hi⟩ := abs_le.1 this
    exact c.add_mem_Icc (by linarith only [lo, m_le_u]) (by linarith only [hi, m_le_v])
  -- the far vertex moves by the sum of both edge moves and a cross term the limiter bounds
  have far : ∀ {w e A : K}, |w| ≤ A → 6 * A - 36 * c.u ≤ e → e ≤ 36 * c.v - 6 * A →
      c.value + (6 * w + e) / 36 ∈ Icc c.low c.high := by
    intro w e A hw lo hi
    obtain ⟨w_lo, w_hi⟩ := abs_le.1 hw
    exact c.add_mem_Icc (by linarith only [lo, w_lo]) (by linarith only [hi, w_hi])
  -- the cross-derivative limits leave an interval, by the slope limits
  obtain ⟨h12, h14, h32, h34⟩ := fits.crossLimits_ordered
  have cross : c.d2zdxdy ∈ Icc _ _ := limitCross_mem_Icc c.d2zdxdyi h12 h14 h32 h34
  rw [abs_six_mul, abs_six_mul] at cross
  obtain ⟨⟨sum_low, dif_low⟩, ⟨sum_high, dif_high⟩⟩ := And.imp max_le_iff.1 le_min_iff.1 cross
  refine ⟨edge hσ dx_limit, edge hτ dy_limit, ?_⟩
  rcases hσ with rfl | rfl <;> rcases hτ with rfl | rfl
  · convert far le_rfl sum_low sum_high using 3; ring
  · convert far (w := c.dzdx - c.dzdy) le_rfl (e := -c.d2zdxdy) (by linarith only [dif_high])
      (by linarith only [dif_low]) using 3; ring
  · convert far (w := c.dzdy - c.dzdx) (abs_sub_comm _ _).le (e := -c.d2zdxdy)
      (by linarith only [dif_high]) (by linarith only [dif_low]) using 3; ring
  · convert far (w := -(c.dzdx + c.dzdy)) (abs_neg _).le sum_low sum_high using 3; ring

/-- A corner's share of the patch at local coordinates `s t`: the Hermite weight
`(1 - s)² (1 - t)²` times a bilinear mean of the corner's four vertices. -/
def Corner.share (c : Corner K) (σ τ s t : K) : K :=
  (1 - s) ^ 2 * (1 - t) ^ 2 *
    ((1 - s) * (1 - t) * c.value + 3 * s * (1 - t) * (c.value + σ * c.dzdx / 6) +
      3 * (1 - s) * t * (c.value + τ * c.dzdy / 6) +
      9 * s * t * (c.value + (6 * σ * c.dzdx + 6 * τ * c.dzdy + σ * τ * c.d2zdxdy) / 36))

/-- The Hermite weight of a corner's share, `(1 - s)² (1 - t)² (1 + 2s) (1 + 2t)`. -/
def hermiteWeight (s t : K) : K := (1 - s) ^ 2 * (1 - t) ^ 2 * ((1 + 2 * s) * (1 + 2 * t))

theorem hermiteWeight_nonneg {s t : K} (hs : s ∈ Icc 0 1) (ht : t ∈ Icc 0 1) :
    0 ≤ hermiteWeight s t := by
  unfold hermiteWeight
  have := hs.1; have := ht.1
  positivity

/-- The Hermite weights of the four corners sum to one. -/
theorem hermiteWeight_sum (X Y : K) :
    hermiteWeight X Y + hermiteWeight (1 - X) Y + hermiteWeight X (1 - Y) +
      hermiteWeight (1 - X) (1 - Y) = 1 := by
  unfold hermiteWeight; ring

theorem weighted_mem_Icc {L H w₁ w₂ w₃ w₄ g₁ g₂ g₃ g₄ : K} (h₁ : 0 ≤ w₁) (h₂ : 0 ≤ w₂)
    (h₃ : 0 ≤ w₃) (h₄ : 0 ≤ w₄) (g₁_mem : g₁ ∈ Icc L H) (g₂_mem : g₂ ∈ Icc L H)
    (g₃_mem : g₃ ∈ Icc L H) (g₄_mem : g₄ ∈ Icc L H) :
    w₁ * g₁ + w₂ * g₂ + w₃ * g₃ + w₄ * g₄ ∈
      Icc ((w₁ + w₂ + w₃ + w₄) * L) ((w₁ + w₂ + w₃ + w₄) * H) :=
  ⟨by linarith [mul_le_mul_of_nonneg_left g₁_mem.1 h₁, mul_le_mul_of_nonneg_left g₂_mem.1 h₂,
      mul_le_mul_of_nonneg_left g₃_mem.1 h₃, mul_le_mul_of_nonneg_left g₄_mem.1 h₄],
    by linarith [mul_le_mul_of_nonneg_left g₁_mem.2 h₁, mul_le_mul_of_nonneg_left g₂_mem.2 h₂,
      mul_le_mul_of_nonneg_left g₃_mem.2 h₃, mul_le_mul_of_nonneg_left g₄_mem.2 h₄]⟩

/-- A fitting corner's share lies between its Hermite weight times the ends of any interval
holding its block range. -/
theorem Corner.Fits.share_mem {c : Corner K} (fits : c.Fits) {L H σ τ s t : K}
    (hσ : σ = 1 ∨ σ = -1) (hτ : τ = 1 ∨ τ = -1) (hs : s ∈ Icc 0 1) (ht : t ∈ Icc 0 1)
    (low : L ≤ c.low) (high : c.high ≤ H) :
    c.share σ τ s t ∈ Icc (hermiteWeight s t * L) (hermiteWeight s t * H) := by
  obtain ⟨along_x, along_y, across⟩ := fits.vertices_mem hσ hτ
  have widen : Icc c.low c.high ⊆ Icc L H := Icc_subset_Icc low high
  have s' := sub_nonneg.2 hs.2
  have t' := sub_nonneg.2 ht.2
  have s_nonneg := hs.1
  have t_nonneg := ht.1
  have mean := weighted_mem_Icc (mul_nonneg s' t')
    (show 0 ≤ 3 * s * (1 - t) by positivity) (show 0 ≤ 3 * (1 - s) * t by positivity)
    (show 0 ≤ 9 * s * t by positivity)
    (widen ⟨fits.low_le, fits.le_high⟩) (widen along_x) (widen along_y) (widen across)
  have factor : 0 ≤ (1 - s) ^ 2 * (1 - t) ^ 2 := by positivity
  have total : (1 - s) * (1 - t) + 3 * s * (1 - t) + 3 * (1 - s) * t + 9 * s * t =
      (1 + 2 * s) * (1 + 2 * t) := by ring
  rw [total] at mean
  have weight : hermiteWeight s t = (1 - s) ^ 2 * (1 - t) ^ 2 * ((1 + 2 * s) * (1 + 2 * t)) := rfl
  rw [weight, mul_assoc _ _ L, mul_assoc _ _ H]
  exact ⟨mul_le_mul_of_nonneg_left mean.1 factor, mul_le_mul_of_nonneg_left mean.2 factor⟩

namespace Patch

variable (p : Patch K)

@[simp] theorem corner00_value : p.corner00.value = p.dosTwo := rfl
@[simp] theorem corner10_value : p.corner10.value = p.dosThr := rfl
@[simp] theorem corner01_value : p.corner01.value = p.treTwo := rfl
@[simp] theorem corner11_value : p.corner11.value = p.treThr := rfl

end Patch

/-- At relative position `(X, Y)`, `lbb` is the sum of the four corners' shares, each in the
corner's own orientation. -/
theorem lbb_eq_shares (p : Patch K) (X Y : K) :
    lbb (lbbCoefficients X Y) p =
      p.corner00.share 1 1 X Y + p.corner10.share (-1) 1 (1 - X) Y +
        p.corner01.share 1 (-1) X (1 - Y) + p.corner11.share (-1) (-1) (1 - X) (1 - Y) := by
  simp only [lbb, lbbCoefficients, Corner.share, Patch.corner00_value, Patch.corner10_value,
    Patch.corner01_value, Patch.corner11_value]
  ring

namespace Patch

variable (p : Patch K)

/-! Three corners fit whatever the values; the block of `tre_thr` omits `tre_fou`. -/

theorem corner00_fits : p.corner00.Fits := by
  refine Corner.fits_of_mem rfl rfl ?_ ?_ ?_ ?_ ?_ <;>
  simp only [corner00, extrema, mem_Icc, min_le_iff, le_max_iff, le_refl, true_or, or_true,
    and_self]

theorem corner10_fits : p.corner10.Fits := by
  refine Corner.fits_of_mem rfl rfl ?_ ?_ ?_ ?_ ?_ <;>
  simp only [corner10, extrema, mem_Icc, min_le_iff, le_max_iff, le_refl, true_or, or_true,
    and_self]

theorem corner01_fits : p.corner01.Fits := by
  refine Corner.fits_of_mem rfl rfl ?_ ?_ ?_ ?_ ?_ <;>
  simp only [corner01, extrema, mem_Icc, min_le_iff, le_max_iff, le_refl, true_or, or_true,
    and_self]

theorem corner11_fits (comonotone : p.treFou ∈ uIcc p.dosFou p.quaFou) : p.corner11.Fits := by
  refine Corner.fits_of_mem rfl rfl ?_
    ⟨min_le_of_right_le comonotone.1, le_max_of_le_right comonotone.2⟩ ?_ ?_ ?_ <;>
  simp only [corner11, extrema, mem_Icc, min_le_iff, le_max_iff, le_refl, true_or, or_true,
    and_self]

end Patch

/-- LBB stays within every interval that holds its 16 stencil values, at every position of the
patch, provided `tre_fou` lies between `dos_fou` and `qua_fou`. -/
theorem lbb_mem_Icc {p : Patch K} {X Y L H : K} (hX : X ∈ Icc 0 1) (hY : Y ∈ Icc 0 1)
    (within : ∀ v ∈ p.values, v ∈ Icc L H) (comonotone : p.treFou ∈ uIcc p.dosFou p.quaFou) :
    lbb (lbbCoefficients X Y) p ∈ Icc L H := by
  simp only [Patch.values, List.forall_mem_cons, List.not_mem_nil, false_implies, implies_true,
    and_true, mem_Icc] at within
  obtain ⟨unoOne, unoTwo, unoThr, unoFou, dosOne, dosTwo, dosThr, dosFou, treOne, treTwo, treThr,
    treFou, quaOne, quaTwo, quaThr, quaFou⟩ := within
  have hX' : 1 - X ∈ Icc 0 1 := ⟨sub_nonneg.2 hX.2, sub_le_self _ hX.1⟩
  have hY' : 1 - Y ∈ Icc 0 1 := ⟨sub_nonneg.2 hY.2, sub_le_self _ hY.1⟩
  have s00 := p.corner00_fits.share_mem (Or.inl rfl) (Or.inl rfl) hX hY
    (show L ≤ _ by simp only [Patch.corner00, Patch.extrema, le_min_iff, *, and_self])
    (show _ ≤ H by simp only [Patch.corner00, Patch.extrema, max_le_iff, *, and_self])
  have s10 := p.corner10_fits.share_mem (Or.inr rfl) (Or.inl rfl) hX' hY
    (show L ≤ _ by simp only [Patch.corner10, Patch.extrema, le_min_iff, *, and_self])
    (show _ ≤ H by simp only [Patch.corner10, Patch.extrema, max_le_iff, *, and_self])
  have s01 := p.corner01_fits.share_mem (Or.inl rfl) (Or.inr rfl) hX hY'
    (show L ≤ _ by simp only [Patch.corner01, Patch.extrema, le_min_iff, *, and_self])
    (show _ ≤ H by simp only [Patch.corner01, Patch.extrema, max_le_iff, *, and_self])
  have s11 := (p.corner11_fits comonotone).share_mem (Or.inr rfl) (Or.inr rfl) hX' hY'
    (show L ≤ _ by simp only [Patch.corner11, Patch.extrema, le_min_iff, *, and_self])
    (show _ ≤ H by simp only [Patch.corner11, Patch.extrema, max_le_iff, *, and_self])
  have sum := hermiteWeight_sum X Y
  have sum_low : (hermiteWeight X Y + hermiteWeight (1 - X) Y + hermiteWeight X (1 - Y) +
      hermiteWeight (1 - X) (1 - Y)) * L = L := by rw [sum, one_mul]
  have sum_high : (hermiteWeight X Y + hermiteWeight (1 - X) Y + hermiteWeight X (1 - Y) +
      hermiteWeight (1 - X) (1 - Y)) * H = H := by rw [sum, one_mul]
  rw [lbb_eq_shares]
  exact ⟨by linarith [s00.1, s10.1, s01.1, s11.1], by linarith [s00.2, s10.2, s01.2, s11.2]⟩

end Lohalo
end Gegl
