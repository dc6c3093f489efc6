import Mathlib

/-!
# The orientation predicates of poly2tri

`p2t_orient2d` classifies three points by the signed area of their triangle, collinear inside the
open band `(-EPSILON, EPSILON)`; `p2t_utils_in_scan_area` tests two signed areas strictly against
`±EPSILON`, so the two agree but on the band's edges. `EPSILON` of `utils.h` is a parameter.
-/

namespace Gegl
namespace P2t

variable {K : Type} [LinearOrderedField K]

/-- `P2tPoint`: the two coordinates the predicates read. -/
structure Point (K : Type) where
  x : K
  y : K
  deriving DecidableEq, Repr

/-- `P2tOrientation`. -/
inductive Orientation
  | cw
  | ccw
  | collinear
  deriving DecidableEq, Repr

/-- The signed area of the comment on `p2t_orient2d`, `(x1-x3)*(y2-y3) - (y1-y3)*(x2-x3)`:
positive for counter-clockwise points and negative for clockwise ones. -/
def signedArea (pa pb pc : Point K) : K :=
  (pa.x - pc.x) * (pb.y - pc.y) - (pa.y - pc.y) * (pb.x - pc.x)

variable (epsilon : K)

/-- `p2t_orient2d`. -/
def orient2d (pa pb pc : Point K) : Orientation :=
  let detleft := (pa.x - pc.x) * (pb.y - pc.y)
  let detright := (pa.y - pc.y) * (pb.x - pc.x)
  let val := detleft - detright
  if val > -epsilon ∧ val < epsilon then .collinear
  else if val > 0 then .ccw
  else .cw

/-- `p2t_utils_in_scan_area`, in the branch the preprocessor keeps. -/
def utilsInScanArea (pa pb pc pd : Point K) : Bool :=
  let oadb := (pa.x - pb.x) * (pd.y - pb.y) - (pd.x - pb.x) * (pa.y - pb.y)
  if oadb ≥ -epsilon then false
  else
    let oadc := (pa.x - pc.x) * (pd.y - pc.y) - (pd.x - pc.x) * (pa.y - pc.y)
    if oadc ≤ epsilon then false
    else true

/-- `p2t_utils_in_scan_area`, in the branch under `#if FALSE`, which the preprocessor drops. -/
def utilsInScanAreaDisabled (pa pb pc pd : Point K) : Bool :=
  let pdx := pd.x
  let pdy := pd.y
  let adx := pa.x - pdx
  let ady := pa.y - pdy
  let bdx := pb.x - pdx
  let bdy := pb.y - pdy
  let adxbdy := adx * bdy
  let bdxady := bdx * ady
  let oabd := adxbdy - bdxady
  if oabd ≤ epsilon then false
  else
    let cdx := pc.x - pdx
    let cdy := pc.y - pdy
    let cdxady := cdx * ady
    let adxcdy := adx * cdy
    let ocad := cdxady - adxcdy
    if ocad ≤ epsilon then false
    else true

/-! ## The two predicates as conditions on signed areas -/

section Classification

variable {epsilon}

/-- `p2t_orient2d` classifies the signed area of its points. -/
theorem orient2d_eq (pa pb pc : Point K) :
    orient2d epsilon pa pb pc =
      if -epsilon < signedArea pa pb pc ∧ signedArea pa pb pc < epsilon then .collinear
      else if 0 < signedArea pa pb pc then .ccw
      else .cw :=
  rfl

theorem orient2d_eq_ccw_iff (positive : 0 < epsilon) (pa pb pc : Point K) :
    orient2d epsilon pa pb pc = .ccw ↔ epsilon ≤ signedArea pa pb pc := by
  rw [orient2d_eq]
  split_ifs with band above
  · exact iff_of_false (by decide) (not_le.2 band.2)
  · exact iff_of_true rfl (le_of_not_lt fun below => band ⟨by linarith, below⟩)
  · exact iff_of_false (by decide) (not_le.2 (by linarith [not_lt.1 above]))

theorem orient2d_eq_cw_iff (positive : 0 < epsilon) (pa pb pc : Point K) :
    orient2d epsilon pa pb pc = .cw ↔ signedArea pa pb pc ≤ -epsilon := by
  rw [orient2d_eq]
  split_ifs with band above
  · exact iff_of_false (by decide) (not_le.2 band.1)
  · exact iff_of_false (by decide) (not_le.2 (by linarith))
  · exact iff_of_true rfl (le_of_not_lt fun inside => band ⟨inside, by linarith [not_lt.1 above]⟩)

/-- The scan-area test computes the signed areas of `(pa, pd, pb)` and `(pa, pd, pc)` from the
products of `p2t_orient2d`, one of them written the other way round. -/
theorem utilsInScanArea_eq (pa pb pc pd : Point K) :
    utilsInScanArea epsilon pa pb pc pd =
      if signedArea pa pd pb ≥ -epsilon then false
      else if signedArea pa pd pc ≤ epsilon then false
      else true := by
  dsimp only [utilsInScanArea, signedArea]
  rw [mul_comm (pd.x - pb.x), mul_comm (pd.x - pc.x)]

/-- The branch of `p2t_utils_in_scan_area` under `#if FALSE` agrees with the one in use for every
`EPSILON` and all four points: it tests the same signed areas, negated or turned round. -/
theorem utilsInScanAreaDisabled_eq (pa pb pc pd : Point K) :
    utilsInScanAreaDisabled epsilon pa pb pc pd = utilsInScanArea epsilon pa pb pc pd := by
  have oabd : (pa.x - pd.x) * (pb.y - pd.y) - (pb.x - pd.x) * (pa.y - pd.y) =
      -((pa.x - pb.x) * (pd.y - pb.y) - (pd.x - pb.x) * (pa.y - pb.y)) := by ring
  have ocad : (pc.x - pd.x) * (pa.y - pd.y) - (pa.x - pd.x) * (pc.y - pd.y) =
      (pa.x - pc.x) * (pd.y - pc.y) - (pd.x - pc.x) * (pa.y - pc.y) := by ring
  dsimp only [utilsInScanAreaDisabled, utilsInScanArea]
  simp only [oabd, ocad, neg_le, ge_iff_le]

/-- The scan-area test asks for the signed area of `(pa, pd, pb)` strictly below `-EPSILON` and
that of `(pa, pd, pc)` strictly above `EPSILON`. -/
theorem utilsInScanArea_eq_true_iff (pa pb pc pd : Point K) :
    utilsInScanArea epsilon pa pb pc pd = true ↔
      signedArea pa pd pb < -epsilon ∧ epsilon < signedArea pa pd pc := by
  rw [utilsInScanArea_eq]
  split_ifs with first second
  · exact iff_of_false (by decide) fun ⟨below, _⟩ => not_lt.2 first below
  · exact iff_of_false (by decide) fun ⟨_, above⟩ => not_lt.2 second above
  · exact iff_of_true rfl ⟨lt_of_not_le first, lt_of_not_le second⟩

end Classification

/-! ## The scan-area test against `p2t_orient2d` -/

/-- `p2t_utils_in_scan_area` is `TRUE` exactly when `p2t_orient2d (pa, pd, pb)` is `CW`,
`p2t_orient2d (pa, pd, pc)` is `CCW`, and neither signed area lies on an edge of the band. -/
theorem utilsInScanArea_iff_orient2d (positive : 0 < epsilon) (pa pb pc pd : Point K) :
    utilsInScanArea epsilon pa pb pc pd = true ↔
      (orient2d epsilon pa pd pb = .cw ∧ orient2d epsilon pa pd pc = .ccw) ∧
        signedArea pa pd pb ≠ -epsilon ∧ signedArea pa pd pc ≠ epsilon := by
  rw [utilsInScanArea_eq_true_iff, orient2d_eq_cw_iff positive, orient2d_eq_ccw_iff positive,
    lt_iff_le_and_ne, lt_iff_le_and_ne, ne_comm (a := epsilon)]
  exact and_and_and_comm

theorem utilsInScanArea_iff_orient2d_unit :
    (0 : ℚ) < 1 / 10 ^ 12 ∧
      (utilsInScanArea (1 / 10 ^ 12 : ℚ) ⟨1, 0⟩ ⟨0, 0⟩ ⟨0, -1⟩ ⟨0, -1⟩ = true ↔
        (orient2d (1 / 10 ^ 12 : ℚ) ⟨1, 0⟩ ⟨0, -1⟩ ⟨0, 0⟩ = .cw ∧
            orient2d (1 / 10 ^ 12 : ℚ) ⟨1, 0⟩ ⟨0, -1⟩ ⟨0, -1⟩ = .ccw) ∧
          signedArea (⟨1, 0⟩ : Point ℚ) ⟨0, -1⟩ ⟨0, 0⟩ ≠ -(1 / 10 ^ 12) ∧
            signedArea (⟨1, 0⟩ : Point ℚ) ⟨0, -1⟩ ⟨0, -1⟩ ≠ 1 / 10 ^ 12) :=
  ⟨by norm_num, utilsInScanArea_iff_orient2d _ (by norm_num) _ _ _ _⟩

/-- On the band's edge the two part: with `EPSILON = 1e-12`, `(pa, pd, pb)` has signed area
`-EPSILON`, which `p2t_orient2d` calls `CW`, and yet `p2t_utils_in_scan_area` returns `FALSE`. -/
theorem utilsInScanArea_band_edge :
    orient2d (1 / 10 ^ 12 : ℚ) ⟨1, 0⟩ ⟨0, -(1 / 10 ^ 12)⟩ ⟨0, 0⟩ = .cw ∧
      orient2d (1 / 10 ^ 12 : ℚ) ⟨1, 0⟩ ⟨0, -(1 / 10 ^ 12)⟩ ⟨0, -1⟩ = .ccw ∧
      utilsInScanArea (1 / 10 ^ 12 : ℚ) ⟨1, 0⟩ ⟨0, 0⟩ ⟨0, -1⟩ ⟨0, -(1 / 10 ^ 12)⟩ = false := by
  have positive : (0 : ℚ) < 1 / 10 ^ 12 := by norm_num
  refine ⟨(orient2d_eq_cw_iff positive _ _ _).2 ?_, (orient2d_eq_ccw_iff positive _ _ _).2 ?_, ?_⟩
  · norm_num [signedArea]
  · norm_num [signedArea]
  · rw [Bool.eq_false_iff, ne_eq, utilsInScanArea_eq_true_iff]
    norm_num [signedArea]

end P2t
end Gegl
