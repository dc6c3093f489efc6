import Gegl.Lohalo.Sampler

/-!
# The singular value decomposition and the EWA ellipse

`gegl_sampler_lohalo_get` wants the ellipse that contains "both the unit disk and the ellipse
which is the image of the unit disk" by `Jinv`, and says it "does not depend on the particular
SVD". Over exact arithmetic its SVD is right, both containments hold at every radius, and the
output depends on `Jinv` only through `n = Jinv * transpose(Jinv)`.
-/

namespace Gegl
namespace Lohalo

variable {K : Type} [LinearOrderedField K]

namespace Jacobian

variable (jacobian : Jacobian K)

/-- `n11`, the first diagonal entry of `n = Jinv * transpose(Jinv)`. -/
def n11 : K := jacobian.a * jacobian.a + jacobian.b * jacobian.b

/-- `n12`, and `n21 = n12`, the off-diagonal entries of `n`. -/
def n12 : K := jacobian.a * jacobian.c + jacobian.b * jacobian.d

/-- `n22`, the second diagonal entry of `n`. -/
def n22 : K := jacobian.c * jacobian.c + jacobian.d * jacobian.d

/-- `n` maps `(x, y)` to `lam (x, y)`. -/
def Eigenvector (lam x y : K) : Prop :=
  jacobian.n11 * x + jacobian.n12 * y = lam * x ∧ jacobian.n12 * x + jacobian.n22 * y = lam * y

instance (lam x y : K) : Decidable (jacobian.Eigenvector lam x y) :=
  inferInstanceAs (Decidable (_ ∧ _))

variable {jacobian}

theorem Eigenvector.div {lam x y : K} (h : jacobian.Eigenvector lam x y) (norm : K) :
    jacobian.Eigenvector lam (x / norm) (y / norm) :=
  ⟨by linear_combination h.1 / norm, by linear_combination h.2 / norm⟩

/-- The perpendicular of an eigenvector is one for the other eigenvalue, `trace n - lam`. -/
theorem Eigenvector.perp {lam x y : K} (h : jacobian.Eigenvector lam x y) :
    jacobian.Eigenvector (jacobian.n11 + jacobian.n22 - lam) (-y) x :=
  ⟨by linear_combination h.2, by linear_combination (-1 : K) * h.1⟩

/-- For a unit eigenvector `u` of `n` for `lam`, `transpose(Jinv) u` has squared length `lam`. -/
theorem Eigenvector.transpose_sq {lam x y : K} (h : jacobian.Eigenvector lam x y)
    (unit : x * x + y * y = 1) :
    (jacobian.a * x + jacobian.c * y) * (jacobian.a * x + jacobian.c * y) +
      (jacobian.b * x + jacobian.d * y) * (jacobian.b * x + jacobian.d * y) = lam := by
  simp only [n11, n12, n22, Eigenvector] at h
  linear_combination x * h.1 + y * h.2 + lam * unit

/-- `transpose(Jinv)` keeps an eigenvector of `n` orthogonal to its perpendicular. -/
theorem Eigenvector.transpose_orthogonal {lam x y : K}
    (h : jacobian.Eigenvector lam (-y) x) :
    (jacobian.a * x + jacobian.c * y) * (jacobian.a * -y + jacobian.c * x) +
      (jacobian.b * x + jacobian.d * y) * (jacobian.b * -y + jacobian.d * x) = 0 := by
  simp only [n11, n12, n22, Eigenvector] at h
  linear_combination x * h.1 + y * h.2

end Jacobian

/-- `r2` of `teepee` for an ellipse: the squared distance to the key location in output space of
the point `[s, t]` in input space, after the clamping. -/
def Axes.r2 (ellipse : Axes K) (s t : K) : K :=
  let q1 := s * ellipse.cMajorX + t * ellipse.cMajorY
  let q2 := s * ellipse.cMinorX + t * ellipse.cMinorY
  q1 * q1 + q2 * q2

theorem teepee_eq_r2 (root : Sqrt K) (ellipse : Axes K) (s t : K) :
    teepee root ellipse.cMajorX ellipse.cMajorY ellipse.cMinorX ellipse.cMinorY s t =
      if ellipse.r2 s t < 1 then 1 - root.sqrt (ellipse.r2 s t) else 0 :=
  rfl

section Eigen

variable (root : Sqrt K) (jacobian : Jacobian K)

/-- The code's first column of `U`, the larger row of `n - lam I` turned a quarter and normalised,
or `[1, 0]` when both rows vanish, is an eigenvector for an eigenvalue `lam`. -/
theorem eigenvector_normalized {lam : K}
    (rows : (lam - jacobian.n11) * (lam - jacobian.n22) = jacobian.n12 * jacobian.n12) :
    let tempU11 := if (lam - jacobian.n11) * (lam - jacobian.n11) ≥
      (lam - jacobian.n22) * (lam - jacobian.n22) then jacobian.n12 else lam - jacobian.n22
    let tempU21 := if (lam - jacobian.n11) * (lam - jacobian.n11) ≥
      (lam - jacobian.n22) * (lam - jacobian.n22) then lam - jacobian.n11 else jacobian.n12
    let norm := root.sqrt (tempU11 * tempU11 + tempU21 * tempU21)
    jacobian.Eigenvector lam (if norm > 0 then tempU11 / norm else 1)
      (if norm > 0 then tempU21 / norm else 0) := by
  intro tempU11 tempU21 norm
  -- both rows, turned a quarter, are eigenvectors, possibly zero
  have candidate : jacobian.Eigenvector lam tempU11 tempU21 := by
    by_cases hpick : (lam - jacobian.n11) * (lam - jacobian.n11) ≥
      (lam - jacobian.n22) * (lam - jacobian.n22)
    · simp only [tempU11, tempU21, if_pos hpick]
      exact ⟨by ring, by linear_combination (-1 : K) * rows⟩
    · simp only [tempU11, tempU21, if_neg hpick]
      exact ⟨by linear_combination (-1 : K) * rows, by ring⟩
  by_cases positive : norm > 0
  · simp only [if_pos positive]
    exact candidate.div norm
  · simp only [if_neg positive]
    have squares : tempU11 * tempU11 + tempU21 * tempU21 = 0 := by
      rw [← root.mul_self_sqrt _ (add_nonneg (mul_self_nonneg _) (mul_self_nonneg _))]
      exact mul_self_eq_zero.2 (le_antisymm (not_lt.1 positive) (root.sqrt_nonneg _))
    obtain ⟨first, second⟩ := mul_self_add_mul_self_eq_zero.1 squares
    -- both rows vanish, so `n = lam I`
    by_cases hpick : (lam - jacobian.n11) * (lam - jacobian.n11) ≥
      (lam - jacobian.n22) * (lam - jacobian.n22)
    · simp only [tempU11, tempU21, if_pos hpick] at first second
      exact ⟨by linear_combination (-1 : K) * second, by linear_combination first⟩
    · simp only [tempU11, if_neg hpick] at first
      exact absurd (by rw [first, mul_zero]; exact mul_self_nonneg _) hpick

theorem s1s1_add_s2s2 :
    (axes root jacobian).s1s1 + (axes root jacobian).s2s2 = jacobian.n11 + jacobian.n22 := by
  dsimp only [axes, Jacobian.n11, Jacobian.n22]
  ring

/-- `s1s1` is a root of the characteristic polynomial of `n`: the rows of `n - s1^2 I` are
proportional. -/
theorem s1s1_rows :
    ((axes root jacobian).s1s1 - jacobian.n11) * ((axes root jacobian).s1s1 - jacobian.n22) =
      jacobian.n12 * jacobian.n12 := by
  have square := root.mul_self_sqrt _ (discriminant_nonneg root jacobian)
  dsimp only [axes, Jacobian.n11, Jacobian.n12, Jacobian.n22] at square ⊢
  linear_combination (1 / 4 : K) * square

theorem eigenvector_major :
    jacobian.Eigenvector (axes root jacobian).s1s1 (axes root jacobian).u11
      (axes root jacobian).u21 :=
  eigenvector_normalized root jacobian (s1s1_rows root jacobian)

theorem eigenvector_minor :
    jacobian.Eigenvector (axes root jacobian).s2s2 (-(axes root jacobian).u21)
      (axes root jacobian).u11 := by
  rw [eq_sub_of_add_eq' (s1s1_add_s2s2 root jacobian)]
  exact (eigenvector_major root jacobian).perp

theorem s2s2_le_s1s1 : (axes root jacobian).s2s2 ≤ (axes root jacobian).s1s1 := by
  have := root.sqrt_nonneg (axes root jacobian).discriminant
  dsimp only [axes] at this ⊢
  linarith

/-- The sampler's SVD is right for every inverse Jacobian: `s1s1 ≥ s2s2 ≥ 0` are the eigenvalues of
`n`, with unit eigenvectors `(u11, u21)` and `(-u21, u11)`, the fallback `[1, 0]` included. -/
theorem axes_singular :
    (axes root jacobian).u11 * (axes root jacobian).u11 +
        (axes root jacobian).u21 * (axes root jacobian).u21 = 1 ∧
      Jacobian.Eigenvector jacobian (axes root jacobian).s1s1 (axes root jacobian).u11
        (axes root jacobian).u21 ∧
      Jacobian.Eigenvector jacobian (axes root jacobian).s2s2 (-(axes root jacobian).u21)
        (axes root jacobian).u11 ∧
      0 ≤ (axes root jacobian).s2s2 ∧ (axes root jacobian).s2s2 ≤ (axes root jacobian).s1s1 :=
  ⟨u11_mul_self_add_u21_mul_self root jacobian, eigenvector_major root jacobian,
    eigenvector_minor root jacobian, s2s2_nonneg root jacobian, s2s2_le_s1s1 root jacobian⟩

end Eigen

/-- Coordinates along two orthogonal vectors `α` and `β`, weighted crosswise by `lam ≥ |α|²` and
`mu ≥ |β|²`, sum to at most `lam mu |w|²`. -/
theorem orthogonal_projections_le {a1 a2 b1 b2 x y lam mu : K} (orth : a1 * b1 + a2 * b2 = 0)
    (hlam : a1 * a1 + a2 * a2 ≤ lam) (hmu : b1 * b1 + b2 * b2 ≤ mu) :
    (a1 * x + a2 * y) ^ 2 * mu + (b1 * x + b2 * y) ^ 2 * lam ≤ lam * mu * (x * x + y * y) := by
  have gap : lam * mu * (x * x + y * y) - ((a1 * x + a2 * y) ^ 2 * mu + (b1 * x + b2 * y) ^ 2 * lam) =
      (mu - (b1 * b1 + b2 * b2)) * (a1 * y - a2 * x) ^ 2 +
        (lam - (a1 * a1 + a2 * a2)) * (b1 * y - b2 * x) ^ 2 +
        (lam - (a1 * a1 + a2 * a2)) * (mu - (b1 * b1 + b2 * b2)) * (x * x + y * y) -
        (a1 * b1 + a2 * b2) * ((a1 * b1 - a2 * b2) * (x * x - y * y) + 2 * (a2 * b1 + a1 * b2) * x * y) := by
    ring
  rw [orth, zero_mul, sub_zero] at gap
  have hlam' := sub_nonneg.2 hlam
  have hmu' := sub_nonneg.2 hmu
  have := add_nonneg (mul_self_nonneg x) (mul_self_nonneg y)
  exact sub_nonneg.1 (gap ▸ by positivity)

/-- Axes at least one long shorten both coordinates. -/
theorem sq_mul_add_sq_mul_le {P1 P2 M m : K} (hM : 1 ≤ M * M) (hm : 1 ≤ m * m) :
    P1 ^ 2 * (m * m) + P2 ^ 2 * (M * M) ≤ M * M * (m * m) * (P1 ^ 2 + P2 ^ 2) := by
  linarith [mul_le_mul_of_nonneg_left hM (mul_nonneg (sq_nonneg P1) (mul_self_nonneg m)),
    mul_le_mul_of_nonneg_left hm (mul_nonneg (sq_nonneg P2) (mul_self_nonneg M))]

/-- Dividing the two coordinates by axis lengths `M` and `m`. -/
theorem div_sq_add_div_sq_le {P1 P2 M m W : K} (hM : 0 < M) (hm : 0 < m)
    (h : P1 ^ 2 * (m * m) + P2 ^ 2 * (M * M) ≤ M * M * (m * m) * W) :
    (P1 / M) ^ 2 + (P2 / m) ^ 2 ≤ W := by
  rw [div_pow, div_pow, div_add_div _ _ (by positivity) (by positivity), div_le_iff₀ (by positivity)]
  linarith

section Ellipse

variable (root : Sqrt K) (jacobian : Jacobian K)

theorem axes_cMajorX :
    (axes root jacobian).cMajorX = (axes root jacobian).u11 / (axes root jacobian).majorMag := rfl

theorem axes_cMajorY :
    (axes root jacobian).cMajorY = (axes root jacobian).u21 / (axes root jacobian).majorMag := rfl

theorem axes_cMinorX :
    (axes root jacobian).cMinorX = -(axes root jacobian).u21 / (axes root jacobian).minorMag := rfl

theorem axes_cMinorY :
    (axes root jacobian).cMinorY = (axes root jacobian).u11 / (axes root jacobian).minorMag := rfl

theorem axes_majorMag : (axes root jacobian).majorMag =
    if (axes root jacobian).s1s1 ≤ 1 then 1 else root.sqrt (axes root jacobian).s1s1 := rfl

theorem axes_minorMag : (axes root jacobian).minorMag =
    if (axes root jacobian).s2s2 ≤ 1 then 1 else root.sqrt (axes root jacobian).s2s2 := rfl

theorem r2_axes (s t : K) :
    (axes root jacobian).r2 s t =
      ((s * (axes root jacobian).u11 + t * (axes root jacobian).u21) /
          (axes root jacobian).majorMag) ^ 2 +
        ((-(s * (axes root jacobian).u21) + t * (axes root jacobian).u11) /
          (axes root jacobian).minorMag) ^ 2 := by
  simp only [Axes.r2, axes_cMajorX, axes_cMajorY, axes_cMinorX, axes_cMinorY]
  ring

/-- Clamping up never shortens an axis: the major half-length is at least `s1`. -/
theorem s1s1_le_majorMag_sq :
    (axes root jacobian).s1s1 ≤ (axes root jacobian).majorMag * (axes root jacobian).majorMag := by
  rw [axes_majorMag]
  split_ifs with small
  · linarith
  · rw [root.mul_self_sqrt _ (by linarith)]

/-- The minor half-length is at least `s2`. -/
theorem s2s2_le_minorMag_sq :
    (axes root jacobian).s2s2 ≤ (axes root jacobian).minorMag * (axes root jacobian).minorMag := by
  rw [axes_minorMag]
  split_ifs with small
  · linarith
  · rw [root.mul_self_sqrt _ (by linarith)]

/-- The ellipse contains every disc around the input location: both axes are at least one long. -/
theorem r2_axes_le (s t : K) : (axes root jacobian).r2 s t ≤ s * s + t * t := by
  have hM := one_le_majorMag root jacobian
  have hm := one_le_minorMag root jacobian
  rw [r2_axes]
  refine div_sq_add_div_sq_le (by linarith) (by linarith) ?_
  -- turning the point by the unit major direction keeps its length
  have rotate : (s * (axes root jacobian).u11 + t * (axes root jacobian).u21) ^ 2 +
      (-(s * (axes root jacobian).u21) + t * (axes root jacobian).u11) ^ 2 = s * s + t * t := by
    linear_combination (s * s + t * t) * u11_mul_self_add_u21_mul_self root jacobian
  rw [← rotate]
  exact sq_mul_add_sq_mul_le (one_le_mul_of_one_le_of_one_le hM hM)
    (one_le_mul_of_one_le_of_one_le hm hm)

/-- The ellipse contains the image under `Jinv` of every disc in output space: its axes are at
least `s1` and `s2` long. -/
theorem r2_axes_image_le (S T : K) :
    (axes root jacobian).r2 (jacobian.a * S + jacobian.b * T) (jacobian.c * S + jacobian.d * T) ≤
      S * S + T * T := by
  have unit := u11_mul_self_add_u21_mul_self root jacobian
  have minor := eigenvector_minor root jacobian
  have s1 := ((eigenvector_major root jacobian).transpose_sq unit).trans_le
    (s1s1_le_majorMag_sq root jacobian)
  have s2 := (minor.transpose_sq (by linear_combination unit)).trans_le
    (s2s2_le_minorMag_sq root jacobian)
  rw [r2_axes]
  refine div_sq_add_div_sq_le (by linarith [one_le_majorMag root jacobian])
    (by linarith [one_le_minorMag root jacobian]) ?_
  convert orthogonal_projections_le minor.transpose_orthogonal s1 s2 (x := S) (y := T) using 3 <;>
    ring

/-- For every inverse Jacobian the clamped ellipse contains, at every radius, the disc around the
input location and the image under `Jinv` of the disc in output space. -/
theorem axes_contain_discs :
    (∀ s t : K, (axes root jacobian).r2 s t ≤ s * s + t * t) ∧
      ∀ S T : K, (axes root jacobian).r2 (jacobian.a * S + jacobian.b * T)
        (jacobian.c * S + jacobian.d * T) ≤ S * S + T * T :=
  ⟨r2_axes_le root jacobian, r2_axes_image_le root jacobian⟩

end Ellipse

/-! ## The ellipse does not depend on `V` -/

/-- A rotation or reflection `[p q; r s]` of output space: its rows are orthonormal. -/
structure OutputIsometry (K : Type) [LinearOrderedField K] where
  p : K
  q : K
  r : K
  s : K
  first_row : p * p + q * q = 1
  second_row : r * r + s * s = 1
  rows_orthogonal : p * r + q * s = 0

/-- The quarter turn `[0 -1; 1 0]`. -/
def OutputIsometry.quarterTurn : OutputIsometry K :=
  ⟨0, -1, 1, 0, by norm_num, by norm_num, by norm_num⟩

/-- `Jinv * [p q; r s]`: the inverse Jacobian after the isometry is applied in output space. -/
def Jacobian.comp (jacobian : Jacobian K) (iso : OutputIsometry K) : Jacobian K where
  a := jacobian.a * iso.p + jacobian.b * iso.r
  b := jacobian.a * iso.q + jacobian.b * iso.s
  c := jacobian.c * iso.p + jacobian.d * iso.r
  d := jacobian.c * iso.q + jacobian.d * iso.s

section Isometry

variable (root : Sqrt K) (jacobian : Jacobian K)

/-- The discriminant is that of the characteristic polynomial of `n`. -/
theorem axes_discriminant : (axes root jacobian).discriminant =
    (jacobian.n11 + jacobian.n22) ^ 2 - 4 * (jacobian.n11 * jacobian.n22 - jacobian.n12 * jacobian.n12) := by
  dsimp only [axes, Jacobian.n11, Jacobian.n12, Jacobian.n22]
  ring

/-- The axes depend on `Jinv` only through `n`. -/
theorem axes_congr {jacobian' : Jacobian K} (h11 : jacobian'.n11 = jacobian.n11)
    (h12 : jacobian'.n12 = jacobian.n12) (h22 : jacobian'.n22 = jacobian.n22) :
    axes root jacobian' = axes root jacobian := by
  have discriminant := axes_discriminant root jacobian'
  rw [h11, h12, h22, ← axes_discriminant root jacobian] at discriminant
  dsimp only [axes, Jacobian.n11, Jacobian.n12, Jacobian.n22] at h11 h12 h22 discriminant ⊢
  rw [h11, h22] at discriminant
  simp only [h11, h12, h22, discriminant]

/-- `n` does not change when an isometry is applied before `Jinv`: `Jinv Q Qᵀ Jinvᵀ = Jinv Jinvᵀ`. -/
theorem axes_comp (iso : OutputIsometry K) : axes root (jacobian.comp iso) = axes root jacobian := by
  have one := iso.first_row
  have two := iso.second_row
  have zero := iso.rows_orthogonal
  apply axes_congr <;> simp only [Jacobian.n11, Jacobian.n12, Jacobian.n22, Jacobian.comp]
  · linear_combination jacobian.a * jacobian.a * one + 2 * jacobian.a * jacobian.b * zero +
      jacobian.b * jacobian.b * two
  · linear_combination jacobian.a * jacobian.c * one +
      (jacobian.a * jacobian.d + jacobian.b * jacobian.c) * zero + jacobian.b * jacobian.d * two
  · linear_combination jacobian.c * jacobian.c * one + 2 * jacobian.c * jacobian.d * zero +
      jacobian.d * jacobian.d * two

variable [FloorRing K]

/-- The output does not depend on the factor `V` of the SVD: for every rotation or reflection `Q`
of output space the sampler gives the same for `Jinv` and `Jinv Q`. -/
theorem get_comp (getPtr : Int → Int → Int → K) (iso : OutputIsometry K)
    (boundingBoxFits : Bool) (absoluteX absoluteY : K) :
    get root getPtr (jacobian.comp iso) boundingBoxFits absoluteX absoluteY =
      get root getPtr jacobian boundingBoxFits absoluteX absoluteY := by
  unfold get
  rw [axes_comp]

theorem get_comp_quarterTurn :
    (⟨2, 1, 0, 3⟩ : Jacobian ℝ).comp OutputIsometry.quarterTurn = ⟨1, -2, 3, 0⟩ ∧
      get Sqrt.real (fun _ _ offset => (offset : ℝ)) ⟨1, -2, 3, 0⟩ true (1 / 3) (-5 / 4) =
        get Sqrt.real (fun _ _ offset => (offset : ℝ)) ⟨2, 1, 0, 3⟩ true (1 / 3) (-5 / 4) := by
  have turned : (⟨2, 1, 0, 3⟩ : Jacobian ℝ).comp OutputIsometry.quarterTurn = ⟨1, -2, 3, 0⟩ := by
    norm_num [Jacobian.comp, OutputIsometry.quarterTurn]
  exact ⟨turned, turned ▸ get_comp Sqrt.real _ _ _ _ _ _⟩

end Isometry

end Lohalo
end Gegl
