import Mathlib

/-!
# The EWA part of the Lohalo sampler

When the inverse Jacobian shrinks some direction, `gegl_sampler_lohalo_get` blends LBB-Nohalo
with an elliptical weighted average (EWA) of the 5x5 block: the ellipse comes from an SVD of the
Jacobian with its axes clamped up to one, and each pixel gets the teepee weight of its distance.
-/

namespace Gegl
namespace Lohalo

variable {K : Type} [LinearOrderedField K]

/-- `sqrt` and `sqrtf` over exact arithmetic: a square root of every non-negative element. -/
structure Sqrt (K : Type) [LinearOrderedField K] where
  sqrt : K → K
  sqrt_nonneg : ∀ x, 0 ≤ sqrt x
  mul_self_sqrt : ∀ x, 0 ≤ x → sqrt x * sqrt x = x

namespace Sqrt

variable (root : Sqrt K)

theorem sqrt_lt_one {x : K} (nonneg : 0 ≤ x) (lt : x < 1) : root.sqrt x < 1 := by
  by_contra! ge
  have := mul_le_mul ge ge zero_le_one (root.sqrt_nonneg x)
  rw [root.mul_self_sqrt x nonneg, one_mul] at this
  linarith

theorem one_le_sqrt {x : K} (ge : 1 ≤ x) : 1 ≤ root.sqrt x := by
  by_contra! lt
  have := mul_lt_mul'' lt lt (root.sqrt_nonneg x) (root.sqrt_nonneg x)
  rw [root.mul_self_sqrt x (zero_le_one.trans ge), one_mul] at this
  linarith

theorem sqrt_le {x y : K} (nonneg : 0 ≤ x) (le : x ≤ y * y) (y_nonneg : 0 ≤ y) :
    root.sqrt x ≤ y :=
  (mul_self_le_mul_self_iff (root.sqrt_nonneg x) y_nonneg).2
    ((root.mul_self_sqrt x nonneg).trans_le le)

end Sqrt

/-- `sqrtf` over the reals, where every statement about a concrete sampling is made. -/
noncomputable def Sqrt.real : Sqrt ℝ :=
  ⟨Real.sqrt, Real.sqrt_nonneg, fun _ nonneg => Real.mul_self_sqrt nonneg⟩

/-- `self->inverse_jacobian->coeff`, as `a b` over `c d`. -/
structure Jacobian (K : Type) where
  a : K
  b : K
  c : K
  d : K

/-- What the sampler derives from the inverse Jacobian: `twice_s1s1`, the squared singular values,
the clamped axes, their reciprocals `c_major` and `c_minor`, and `ellipse_f`. -/
structure Axes (K : Type) where
  discriminant : K
  twiceS1s1 : K
  s1s1 : K
  s2s2 : K
  u11 : K
  u21 : K
  majorMag : K
  minorMag : K
  cMajorX : K
  cMajorY : K
  cMinorX : K
  cMinorY : K
  ellipseF : K

/-- The singular value decomposition and the clamped axes, as the source computes them. The part
after the test on `twice_s1s1` is pure, so it is computed here whatever the test says. -/
def axes (root : Sqrt K) (jacobian : Jacobian K) : Axes K :=
  let a := jacobian.a
  let b := jacobian.b
  let c := jacobian.c
  let d := jacobian.d
  let aa := a * a
  let bb := b * b
  let cc := c * c
  let dd := d * d
  let n11 := aa + bb
  let n12 := a * c + b * d
  let n21 := n12
  let n22 := cc + dd
  let det := a * d - b * c
  let twiceDet := det + det
  let frobeniusSquared := n11 + n22
  let discriminant := (frobeniusSquared + twiceDet) * (frobeniusSquared - twiceDet)
  let sqrtDiscriminant := root.sqrt discriminant
  let twiceS1s1 := frobeniusSquared + sqrtDiscriminant
  let s1s1 := 1 / 2 * twiceS1s1
  let s2s2 := 1 / 2 * (frobeniusSquared - sqrtDiscriminant)
  let s1s1minusn11 := s1s1 - n11
  let s1s1minusn22 := s1s1 - n22
  let s1s1minusn11Squared := s1s1minusn11 * s1s1minusn11
  let s1s1minusn22Squared := s1s1minusn22 * s1s1minusn22
  let tempU11 := if s1s1minusn11Squared ≥ s1s1minusn22Squared then n12 else s1s1minusn22
  let tempU21 := if s1s1minusn11Squared ≥ s1s1minusn22Squared then s1s1minusn11 else n21
  let norm := root.sqrt (tempU11 * tempU11 + tempU21 * tempU21)
  let u11 := if norm > 0 then tempU11 / norm else 1
  let u21 := if norm > 0 then tempU21 / norm else 0
  let majorMag := if s1s1 ≤ 1 then 1 else root.sqrt s1s1
  let minorMag := if s2s2 ≤ 1 then 1 else root.sqrt s2s2
  let majorUnitX := u11
  let majorUnitY := u21
  let minorUnitX := -u21
  let minorUnitY := u11
  { discriminant := discriminant, twiceS1s1 := twiceS1s1, s1s1 := s1s1, s2s2 := s2s2,
    u11 := u11, u21 := u21, majorMag := majorMag, minorMag := minorMag,
    cMajorX := majorUnitX / majorMag, cMajorY := majorUnitY / majorMag,
    cMinorX := minorUnitX / minorMag, cMinorY := minorUnitY / minorMag,
    ellipseF := majorMag * minorMag }

/-- `teepee`: the weight of a point `(s, t)` away from the sampling point. -/
def teepee (root : Sqrt K) (cMajorX cMajorY cMinorX cMinorY s t : K) : K :=
  let q1 := s * cMajorX + t * cMajorY
  let q2 := s * cMinorX + t * cMinorY
  let r2 := q1 * q1 + q2 * q2
  if r2 < 1 then 1 - root.sqrt r2 else 0

/-- `channels`. -/
def channels : Int := 4

/-- `pixels_per_row`, the width of the fetched rectangle. -/
def pixelsPerRow : Int := 64

/-- `row_skip`. -/
def rowSkip : Int := channels * pixelsPerRow

/-- The accumulators `total_weight` and `ewa_newval` of the EWA loop. -/
structure Accumulator (K : Type) where
  totalWeight : K
  ewaNewval : Fin 4 → K

/-- `ewa_update (j, i, ...)`: add the pixel `j` columns and `i` rows from the anchor, read
through `input_bptr`, with its teepee weight at `(x_0 - j, y_0 - i)`. -/
def ewaUpdate (root : Sqrt K) (ellipse : Axes K) (x0 y0 : K) (inputBptr : Int → K)
    (acc : Accumulator K) (offset : Int × Int) : Accumulator K :=
  let j := offset.1
  let i := offset.2
  let skip := j * channels + i * rowSkip
  let weight := teepee root ellipse.cMajorX ellipse.cMajorY ellipse.cMinorX ellipse.cMinorY
    (x0 - j) (y0 - i)
  { totalWeight := acc.totalWeight + weight,
    ewaNewval := fun k => acc.ewaNewval k + weight * inputBptr (skip + k) }

/-- The 25 calls `LOHALO_CALL_EWA_UPDATE (j, i)`, row by row from the top, each row from left to
right. -/
def ewaOffsets : List (Int × Int) :=
  [-2, -1, 0, 1, 2].flatMap fun i => [-2, -1, 0, 1, 2].map fun j => (j, i)

section Axes

variable (root : Sqrt K) (jacobian : Jacobian K)

/-- The discriminant is `((a+d)² + (b-c)²) ((a-d)² + (b+c)²)`, so `sqrt` is applied to a
non-negative number. -/
theorem discriminant_nonneg : 0 ≤ (axes root jacobian).discriminant := by
  dsimp only [axes]
  apply mul_nonneg <;>
  linarith [sq_nonneg (jacobian.a + jacobian.d), sq_nonneg (jacobian.b - jacobian.c),
    sq_nonneg (jacobian.a - jacobian.d), sq_nonneg (jacobian.b + jacobian.c)]

/-- The squared smaller singular value is non-negative: the square root of the discriminant is at
most the squared Frobenius norm. -/
theorem s2s2_nonneg : 0 ≤ (axes root jacobian).s2s2 := by
  have discriminant := discriminant_nonneg root jacobian
  dsimp only [axes] at discriminant ⊢
  have frobenius : 0 ≤ jacobian.a * jacobian.a + jacobian.b * jacobian.b +
      (jacobian.c * jacobian.c + jacobian.d * jacobian.d) :=
    add_nonneg (add_nonneg (mul_self_nonneg _) (mul_self_nonneg _))
      (add_nonneg (mul_self_nonneg _) (mul_self_nonneg _))
  -- the discriminant is `f * f - t * t` for the squared Frobenius norm `f`
  have := root.sqrt_le discriminant
    (by rw [← mul_self_sub_mul_self]; exact sub_le_self _ (mul_self_nonneg _)) frobenius
  linarith

theorem one_le_majorMag : 1 ≤ (axes root jacobian).majorMag := by
  dsimp only [axes]
  split_ifs with small
  · exact le_rfl
  · exact root.one_le_sqrt (le_of_not_le small)

theorem one_le_minorMag : 1 ≤ (axes root jacobian).minorMag := by
  dsimp only [axes]
  split_ifs with small
  · exact le_rfl
  · exact root.one_le_sqrt (le_of_not_le small)

/-- Normalising `(x, y)` by its length, with the fallback `(1, 0)` at length zero, gives a unit
vector. -/
theorem normalize_unit (x y : K) :
    let norm := root.sqrt (x * x + y * y)
    (if norm > 0 then x / norm else 1) * (if norm > 0 then x / norm else 1) +
      (if norm > 0 then y / norm else 0) * (if norm > 0 then y / norm else 0) = 1 := by
  intro norm
  split_ifs with positive
  · have square := root.mul_self_sqrt (x * x + y * y)
      (add_nonneg (mul_self_nonneg _) (mul_self_nonneg _))
    rw [div_mul_div_comm, div_mul_div_comm, div_add_div_same, ← square,
      div_self (mul_pos positive positive).ne']
  · norm_num

/-- The major axis direction `(u11, u21)` is a unit vector, also in the fallback case. -/
theorem u11_mul_self_add_u21_mul_self :
    (axes root jacobian).u11 * (axes root jacobian).u11 +
      (axes root jacobian).u21 * (axes root jacobian).u21 = 1 :=
  normalize_unit root _ _

/-- `ellipse_f` is at least one. -/
theorem one_le_ellipseF : 1 ≤ (axes root jacobian).ellipseF :=
  one_le_mul_of_one_le_of_one_le (one_le_majorMag root jacobian) (one_le_minorMag root jacobian)

/-- `theta = 1 / ellipse_f`, the share of the LBB-Nohalo value in the blend, lies in `(0, 1]`. -/
theorem theta_mem_Ioc : 1 / (axes root jacobian).ellipseF ∈ Set.Ioc 0 1 :=
  have ellipseF := one_le_ellipseF root jacobian
  ⟨one_div_pos.2 (zero_lt_one.trans_le ellipseF),
    (div_le_one (zero_lt_one.trans_le ellipseF)).2 ellipseF⟩

end Axes

theorem teepee_nonneg (root : Sqrt K) (cMajorX cMajorY cMinorX cMinorY s t : K) :
    0 ≤ teepee root cMajorX cMajorY cMinorX cMinorY s t := by
  dsimp only [teepee]
  split_ifs with near
  · exact sub_nonneg.2 (root.sqrt_lt_one (add_nonneg (mul_self_nonneg _) (mul_self_nonneg _))
      near).le
  · exact le_rfl

/-- A point nearer than one to the sampling point, in box coordinates, has a positive weight for
axes of length at least one along a unit direction: the ellipse metric shrinks distances. -/
theorem teepee_pos (root : Sqrt K) {majorMag minorMag u11 u21 s t : K} (major : 1 ≤ majorMag)
    (minor : 1 ≤ minorMag) (unit : u11 * u11 + u21 * u21 = 1) (near : s * s + t * t < 1) :
    0 < teepee root (u11 / majorMag) (u21 / majorMag) (-u21 / minorMag) (u11 / minorMag) s t := by
  have shrink (A M : K) (hM : 1 ≤ M) : A / M * (A / M) ≤ A * A := by
    rw [div_mul_div_comm]
    exact div_le_self (mul_self_nonneg A) (one_le_mul_of_one_le_of_one_le hM hM)
  have major_part := shrink (s * u11 + t * u21) majorMag major
  have minor_part := shrink (-(s * u21) + t * u11) minorMag minor
  have rotate : (s * u11 + t * u21) * (s * u11 + t * u21) +
      (-(s * u21) + t * u11) * (-(s * u21) + t * u11) = s * s + t * t := by
    linear_combination (s * s + t * t) * unit
  have r2 : (s * (u11 / majorMag) + t * (u21 / majorMag)) *
        (s * (u11 / majorMag) + t * (u21 / majorMag)) +
      (s * (-u21 / minorMag) + t * (u11 / minorMag)) *
        (s * (-u21 / minorMag) + t * (u11 / minorMag)) < 1 := by
    have first : s * (u11 / majorMag) + t * (u21 / majorMag) = (s * u11 + t * u21) / majorMag := by
      ring
    have second : s * (-u21 / minorMag) + t * (u11 / minorMag) =
        (-(s * u21) + t * u11) / minorMag := by ring
    rw [first, second]
    linarith
  dsimp only [teepee]
  rw [if_pos r2]
  exact sub_pos.2 (root.sqrt_lt_one (add_nonneg (mul_self_nonneg _) (mul_self_nonneg _)) r2)

/-- The teepee weight `ewa_update` gives the pixel at `offset` from the anchor. -/
def ewaWeight (root : Sqrt K) (ellipse : Axes K) (x0 y0 : K) (offset : Int × Int) : K :=
  teepee root ellipse.cMajorX ellipse.cMajorY ellipse.cMinorX ellipse.cMinorY
    (x0 - offset.1) (y0 - offset.2)

section Accumulation

variable (root : Sqrt K) (ellipse : Axes K) (x0 y0 : K) (inputBptr : Int → K)

theorem foldl_ewaUpdate_totalWeight (offsets : List (Int × Int)) (acc : Accumulator K) :
    (offsets.foldl (ewaUpdate root ellipse x0 y0 inputBptr) acc).totalWeight =
      acc.totalWeight + (offsets.map (ewaWeight root ellipse x0 y0)).sum := by
  induction offsets generalizing acc with
  | nil => simp
  | cons offset offsets ih =>
    rw [List.foldl_cons, ih, List.map_cons, List.sum_cons, ← add_assoc]
    rfl

theorem foldl_ewaUpdate_ewaNewval (offsets : List (Int × Int)) (acc : Accumulator K) (k : Fin 4) :
    (offsets.foldl (ewaUpdate root ellipse x0 y0 inputBptr) acc).ewaNewval k =
      acc.ewaNewval k + (offsets.map fun offset => ewaWeight root ellipse x0 y0 offset *
        inputBptr (offset.1 * channels + offset.2 * rowSkip + k)).sum := by
  induction offsets generalizing acc with
  | nil => simp
  | cons offset offsets ih =>
    rw [List.foldl_cons, ih, List.map_cons, List.sum_cons, ← add_assoc]
    rfl

end Accumulation

/-- A sum of non-negatively weighted values in `[L, H]` lies between the total weight times `L`
and times `H`. -/
theorem sum_map_mul_mem_Icc {ι : Type} (l : List ι) (w p : ι → K) {L H : K}
    (nonneg : ∀ o ∈ l, 0 ≤ w o) (within : ∀ o ∈ l, p o ∈ Set.Icc L H) :
    (l.map fun o => w o * p o).sum ∈ Set.Icc ((l.map w).sum * L) ((l.map w).sum * H) := by
  induction l with
  | nil => simp
  | cons o l ih =>
    simp only [List.mem_cons, forall_eq_or_imp] at nonneg within
    obtain ⟨low, high⟩ := ih nonneg.2 within.2
    simp only [List.map_cons, List.sum_cons, add_mul]
    exact ⟨add_le_add (mul_le_mul_of_nonneg_left within.1.1 nonneg.1) low,
      add_le_add (mul_le_mul_of_nonneg_left within.1.2 nonneg.1) high⟩

theorem sum_map_div_mul {ι : Type} (l : List ι) (w p : ι → K) (total : K) :
    (l.map fun o => w o / total * p o).sum = (l.map fun o => w o * p o).sum / total := by
  simp only [div_mul_eq_mul_div]
  simp only [div_eq_mul_inv, List.sum_map_mul_right]

/-- A convex combination of two values of an interval stays in it. -/
theorem convex_mem_Icc {θ a b L H : K} (hθ : θ ∈ Set.Icc 0 1) (ha : a ∈ Set.Icc L H)
    (hb : b ∈ Set.Icc L H) : θ * a + (1 - θ) * b ∈ Set.Icc L H := by
  have θ' := sub_nonneg.2 hθ.2
  constructor
  · linarith [mul_le_mul_of_nonneg_left ha.1 hθ.1, mul_le_mul_of_nonneg_left hb.1 θ']
  · linarith [mul_le_mul_of_nonneg_left ha.2 hθ.1, mul_le_mul_of_nonneg_left hb.2 θ']

theorem zero_mem_ewaOffsets : ((0, 0) : Int × Int) ∈ ewaOffsets := by decide

/-- The total weight of the 25 pixels is positive when the sampling point is nearer than one to
the anchor: the anchor's own weight is. -/
theorem ewaWeights_sum_pos (root : Sqrt K) (jacobian : Jacobian K) {x0 y0 : K}
    (near : x0 * x0 + y0 * y0 < 1) :
    0 < (ewaOffsets.map (ewaWeight root (axes root jacobian) x0 y0)).sum := by
  have center : 0 < ewaWeight root (axes root jacobian) x0 y0 (0, 0) := by
    have := teepee_pos root (one_le_majorMag root jacobian) (one_le_minorMag root jacobian)
      (u11_mul_self_add_u21_mul_self root jacobian) near
    simpa [ewaWeight] using this
  exact center.trans_le (List.single_le_sum (fun w mem => by
    obtain ⟨offset, -, rfl⟩ := List.mem_map.1 mem
    exact teepee_nonneg _ _ _ _ _ _ _) _ (List.mem_map_of_mem _ zero_mem_ewaOffsets))

end Lohalo
end Gegl
