import Gegl.Lohalo.Continuity
import Gegl.Lohalo.Hermite
import Gegl.Lohalo.Symmetry

/-!
# The LBB-Nohalo reconstruction is C¹ with continuous cross derivatives

`lbb`'s comment says LBB "is C^1 with continuous cross derivatives". Over the reals so is the
LBB-Nohalo value: the cell pieces have one derivative along each seam, so their derivatives glue
over the quadrants as the values do, and by the symmetry of second derivatives so do the cross
derivatives.
-/

namespace Gegl
namespace Lohalo

open Set Filter Topology

/-- Two half-pixel cells that hold the same position are equal or adjacent, and then the position
is the end they share. -/
theorem halfCell_adjacent {a : ℝ} {i j : Int} (hj : a ∈ halfCell j) (hi : a ∈ halfCell i) :
    i = j ∨ (i = j + 1 ∧ a = ((j : ℝ) + 1) / 2) ∨ (j = i + 1 ∧ a = ((i : ℝ) + 1) / 2) := by
  obtain ⟨lo_j, hi_j⟩ := hj
  obtain ⟨lo_i, hi_i⟩ := hi
  have above : i ≤ j + 1 := by
    have : (i : ℝ) ≤ (j + 1 : Int) := by push_cast; linarith only [lo_i, hi_j]
    exact_mod_cast this
  have below : j ≤ i + 1 := by
    have : (j : ℝ) ≤ (i + 1 : Int) := by push_cast; linarith only [lo_j, hi_i]
    exact_mod_cast this
  rcases (show i = j ∨ i = j + 1 ∨ j = i + 1 by omega) with same | next | previous
  · exact .inl same
  · subst next
    push_cast at lo_i
    exact .inr (.inl ⟨rfl, le_antisymm hi_j lo_i⟩)
  · subst previous
    push_cast at lo_j
    exact .inr (.inr ⟨rfl, le_antisymm hi_i lo_j⟩)

/-- Two functions on the plane whose difference is the square of a function vanishing at `z`
times a function differentiable there have the same derivative at `z`. -/
theorem fderiv_eq_of_sub_eq_sq_mul {g g' e q : ℝ × ℝ → ℝ} {z : ℝ × ℝ}
    (hg : DifferentiableAt ℝ g z) (he : DifferentiableAt ℝ e z) (zero : e z = 0)
    (sub : ∀ w, g' w - g w = e w ^ 2 * q w) (hq : DifferentiableAt ℝ q z) :
    fderiv ℝ g' z = fderiv ℝ g z := by
  have flat : HasFDerivAt (fun w => e w ^ 2 * q w) (0 : ℝ × ℝ →L[ℝ] ℝ) z := by
    have := he.hasFDerivAt.mul (he.hasFDerivAt.mul hq.hasFDerivAt)
    rw [zero, zero_mul, zero_smul, zero_smul, add_zero] at this
    simpa only [sq, mul_assoc] using this
  have split : g' = fun w => g w + e w ^ 2 * q w := funext fun w => eq_add_of_sub_eq' (sub w)
  rw [split, (hg.hasFDerivAt.add flat).fderiv, add_zero]

/-- Along a line, a function that agrees on each closed half-pixel cell with a differentiable piece,
adjacent pieces having one derivative at their common end, has each piece's derivative. -/
theorem hasDerivAt_of_halfCells {h : ℝ → ℝ} (piece : Int → ℝ → ℝ)
    (smooth : ∀ j, Differentiable ℝ (piece j)) (agree : ∀ j x, x ∈ halfCell j → h x = piece j x)
    (seam : ∀ j, deriv (piece (j + 1)) (((j : ℝ) + 1) / 2) = deriv (piece j) (((j : ℝ) + 1) / 2))
    {j : Int} {a : ℝ} (ha : a ∈ halfCell j) : HasDerivAt h (deriv (piece j) a) a := by
  have step : ∀ {i : Int}, a ∈ halfCell i → deriv (piece i) a = deriv (piece j) a := by
    intro i hi
    rcases halfCell_adjacent ha hi with rfl | ⟨rfl, rfl⟩ | ⟨rfl, rfl⟩
    · rfl
    · exact seam j
    · exact (seam i).symm
  have side : ∀ {s : Set ℝ}, a ∈ s → (∃ i : Int, ∀ᶠ x in 𝓝[s] a, x ∈ halfCell i) →
      HasDerivWithinAt h (deriv (piece j) a) s a := by
    rintro s mem ⟨i, near⟩
    have hi := near.self_of_nhdsWithin mem
    rw [← step hi]
    exact (smooth i a).hasDerivAt.hasDerivWithinAt.congr_of_eventuallyEq
      (near.mono fun x hx => agree i x hx) (agree i a hi)
  rw [← hasDerivWithinAt_univ, ← Iic_union_Ici (a := a)]
  exact (side right_mem_Iic (eventually_mem_halfCell_left a)).union
    (side left_mem_Ici (eventually_mem_halfCell_right a))

/-- Along a line through the plane, the first derivative of a `C²` function, applied to a fixed
vector, has the second derivative in the line's direction as its derivative. -/
theorem hasDerivAt_fderiv_comp {P : ℝ × ℝ → ℝ} (hP : ContDiff ℝ 2 P) {γ : ℝ → ℝ × ℝ}
    {d : ℝ × ℝ} {t : ℝ} (hγ : HasDerivAt γ d t) (v : ℝ × ℝ) :
    HasDerivAt (fun s => fderiv ℝ P (γ s) v) (fderiv ℝ (fderiv ℝ P) (γ t) d v) t := by
  have second : HasFDerivAt (fderiv ℝ P) (fderiv ℝ (fderiv ℝ P) (γ t)) (γ t) :=
    ((hP.fderiv_right (m := 1) le_rfl).differentiable le_rfl _).hasFDerivAt
  simpa using (second.comp_hasDerivAt t hγ).clm_apply (hasDerivAt_const t v)

/-- Two `C²` functions with the same first derivative all along a line have the same second
derivative in the line's direction on it. -/
theorem fderiv_fderiv_eq_of_line {P P' : ℝ × ℝ → ℝ} (hP : ContDiff ℝ 2 P) (hP' : ContDiff ℝ 2 P')
    {γ : ℝ → ℝ × ℝ} {d : ℝ × ℝ} {t : ℝ} (hγ : HasDerivAt γ d t)
    (line : ∀ s, fderiv ℝ P' (γ s) = fderiv ℝ P (γ s)) (v : ℝ × ℝ) :
    fderiv ℝ (fderiv ℝ P') (γ t) d v = fderiv ℝ (fderiv ℝ P) (γ t) d v := by
  have along := hasDerivAt_fderiv_comp hP' hγ v
  simp only [line] at along
  exact along.unique (hasDerivAt_fderiv_comp hP hγ v)

theorem hasDerivAt_horizontal (b x : ℝ) : HasDerivAt (fun x : ℝ => ((x, b) : ℝ × ℝ)) (1, 0) x :=
  (hasDerivAt_id x).prod (hasDerivAt_const x b)

theorem hasDerivAt_vertical (a y : ℝ) : HasDerivAt (fun y : ℝ => ((a, y) : ℝ × ℝ)) (0, 1) y :=
  (hasDerivAt_const y a).prod (hasDerivAt_id y)

section Gluing

/-! A function on the plane that agrees on each product of closed half-pixel cells with a `C²`
piece, adjacent pieces having one first derivative along their common side. -/

variable {f : ℝ × ℝ → ℝ} (piece : Int → Int → ℝ × ℝ → ℝ)
  (smooth : ∀ j j', ContDiff ℝ 2 (piece j j'))
  (agree : ∀ j j' x y, x ∈ halfCell j → y ∈ halfCell j' → f (x, y) = piece j j' (x, y))
  (seamX : ∀ j j' y, fderiv ℝ (piece (j + 1) j') (((j : ℝ) + 1) / 2, y) =
    fderiv ℝ (piece j j') (((j : ℝ) + 1) / 2, y))
  (seamY : ∀ j j' x, fderiv ℝ (piece j (j' + 1)) (x, ((j' : ℝ) + 1) / 2) =
    fderiv ℝ (piece j j') (x, ((j' : ℝ) + 1) / 2))
include smooth agree seamX seamY

/-- On every closed cell, `f` has the derivative of the cell's piece. -/
theorem hasFDerivAt_of_halfCells {j j' : Int} {a b : ℝ} (ha : a ∈ halfCell j)
    (hb : b ∈ halfCell j') : HasFDerivAt f (fderiv ℝ (piece j j') (a, b)) (a, b) := by
  -- the pieces of all cells that hold a point have one derivative there
  have stepX : ∀ {i : Int} {y : ℝ}, a ∈ halfCell i →
      fderiv ℝ (piece i j') (a, y) = fderiv ℝ (piece j j') (a, y) := by
    intro i y hi
    rcases halfCell_adjacent ha hi with rfl | ⟨rfl, rfl⟩ | ⟨rfl, rfl⟩
    · rfl
    · exact seamX j j' y
    · exact (seamX i j' y).symm
  have stepY : ∀ {i i' : Int}, b ∈ halfCell i' →
      fderiv ℝ (piece i i') (a, b) = fderiv ℝ (piece i j') (a, b) := by
    intro i i' hi'
    rcases halfCell_adjacent hb hi' with rfl | ⟨rfl, rfl⟩ | ⟨rfl, rfl⟩
    · rfl
    · exact seamY i j' a
    · exact (seamY i i' a).symm
  -- quadrant by quadrant, `f` is the piece of a cell that holds the point
  have quadrant : ∀ {s t : Set ℝ}, (s = Iic a ∨ s = Ici a) → (t = Iic b ∨ t = Ici b) →
      HasFDerivWithinAt f (fderiv ℝ (piece j j') (a, b)) (s ×ˢ t) (a, b) := by
    intro s t hs ht
    obtain ⟨i, i', ⟨hi, hi'⟩, near⟩ := eventually_mem_halfCells hs ht
    rw [← stepX hi, ← stepY hi']
    exact ((smooth i i').differentiable (by norm_num) (a, b)).hasFDerivAt.hasFDerivWithinAt
      |>.congr_of_eventuallyEq (near.mono fun w hw => agree i i' w.1 w.2 hw.1 hw.2)
        (agree i i' a b hi hi')
  rw [← hasFDerivWithinAt_univ, ← quadrants_cover a b]
  exact ((quadrant (.inl rfl) (.inl rfl)).union (quadrant (.inl rfl) (.inr rfl))).union
    ((quadrant (.inr rfl) (.inl rfl)).union (quadrant (.inr rfl) (.inr rfl)))

/-- `f` is continuously differentiable. -/
theorem contDiff_of_halfCells : ContDiff ℝ 1 f := by
  refine contDiff_one_iff_fderiv.2 ⟨fun z => ?_, continuous_of_halfCells
    (fun j j' => fderiv ℝ (piece j j')) (fun j j' => (smooth j j').continuous_fderiv (by norm_num))
    fun j j' x y hx hy => (hasFDerivAt_of_halfCells piece smooth agree seamX seamY hx hy).fderiv⟩
  obtain ⟨j, hj⟩ := exists_mem_cell z.1
  obtain ⟨j', hj'⟩ := exists_mem_cell z.2
  exact (hasFDerivAt_of_halfCells piece smooth agree seamX seamY hj hj').differentiableAt

/-- Along every horizontal line, the `y` derivative of `f` has each cell piece's cross derivative
as its derivative, across vertical seams by the symmetry of second derivatives. -/
theorem hasDerivAt_partialY_of_halfCells {j j' : Int} {a b : ℝ} (ha : a ∈ halfCell j)
    (hb : b ∈ halfCell j') :
    HasDerivAt (fun x => fderiv ℝ f (x, b) (0, 1))
      (fderiv ℝ (fderiv ℝ (piece j j')) (a, b) (1, 0) (0, 1)) a := by
  have line := fun i x => hasDerivAt_fderiv_comp (smooth i j') (hasDerivAt_horizontal b x) (0, 1)
  rw [← (line j a).deriv]
  refine hasDerivAt_of_halfCells _ (fun i x => (line i x).differentiableAt) (fun i x hx => ?_)
    (fun i => ?_) ha
  · rw [(hasFDerivAt_of_halfCells piece smooth agree seamX seamY hx hb).fderiv]
  · rw [(line _ _).deriv, (line _ _).deriv, ((smooth _ _).contDiffAt.isSymmSndFDerivAt le_rfl).eq,
      ((smooth i j').contDiffAt.isSymmSndFDerivAt le_rfl).eq]
    exact fderiv_fderiv_eq_of_line (smooth i j') (smooth (i + 1) j') (hasDerivAt_vertical _ b)
      (seamX i j') (1, 0)

/-- Along every vertical line, the `x` derivative of `f` has the cross derivative of the piece of
each cell as its derivative. -/
theorem hasDerivAt_partialX_of_halfCells {j j' : Int} {a b : ℝ} (ha : a ∈ halfCell j)
    (hb : b ∈ halfCell j') :
    HasDerivAt (fun y => fderiv ℝ f (a, y) (1, 0))
      (fderiv ℝ (fderiv ℝ (piece j j')) (a, b) (0, 1) (1, 0)) b := by
  have line := fun i' y => hasDerivAt_fderiv_comp (smooth j i') (hasDerivAt_vertical a y) (1, 0)
  rw [← (line j' b).deriv]
  refine hasDerivAt_of_halfCells _ (fun i' y => (line i' y).differentiableAt) (fun i' y hy => ?_)
    (fun i' => ?_) hb
  · rw [(hasFDerivAt_of_halfCells piece smooth agree seamX seamY ha hy).fderiv]
  · rw [(line _ _).deriv, (line _ _).deriv, ((smooth _ _).contDiffAt.isSymmSndFDerivAt le_rfl).eq,
      ((smooth j i').contDiffAt.isSymmSndFDerivAt le_rfl).eq]
    exact fderiv_fderiv_eq_of_line (smooth j i') (smooth j (i' + 1)) (hasDerivAt_horizontal _ a)
      (seamY j i') (0, 1)

/-- The two mixed partial derivatives of `f` exist everywhere, are equal, and are continuous. -/
theorem crossDerivative_of_halfCells : ∃ cross : ℝ × ℝ → ℝ, Continuous cross ∧ ∀ z : ℝ × ℝ,
    HasDerivAt (fun x => fderiv ℝ f (x, z.2) (0, 1)) (cross z) z.1 ∧
      HasDerivAt (fun y => fderiv ℝ f (z.1, y) (1, 0)) (cross z) z.2 := by
  refine ⟨fun z => deriv (fun x => fderiv ℝ f (x, z.2) (0, 1)) z.1, continuous_of_halfCells
    (fun j j' z => fderiv ℝ (fderiv ℝ (piece j j')) z (1, 0) (0, 1)) (fun j j' => ?_)
    (fun j j' x y hx hy =>
      (hasDerivAt_partialY_of_halfCells piece smooth agree seamX seamY hx hy).deriv),
    fun z => ?_⟩
  · exact ((((smooth j j').fderiv_right (m := 1) le_rfl).continuous_fderiv le_rfl).clm_apply
      continuous_const).clm_apply continuous_const
  · obtain ⟨j, hj⟩ := exists_mem_cell z.1
    obtain ⟨j', hj'⟩ := exists_mem_cell z.2
    have y_then_x := hasDerivAt_partialY_of_halfCells piece smooth agree seamX seamY hj hj'
    have x_then_y := hasDerivAt_partialX_of_halfCells piece smooth agree seamX seamY hj hj'
    rw [← ((smooth j j').contDiffAt.isSymmSndFDerivAt le_rfl).eq] at x_then_y
    dsimp only
    rw [y_then_x.deriv]
    exact ⟨y_then_x, x_then_y⟩

end Gluing

/-- The LBB patch of the half-pixel cell `(j, j')`: LBB on the window of `R` at the cell's
anchors, read in the directions of its signs. -/
def cellPiece {K : Type} [LinearOrderedField K] (R : Int → Int → K) (j j' : Int) (w : K × K) : K :=
  lbb (lbbCoefficients (2 * cellSign j * (w.1 - cellAnchor j))
      (2 * cellSign j' * (w.2 - cellAnchor j')))
    (window R (2 * cellAnchor j) (2 * cellAnchor j') (cellSign j) (cellSign j'))

theorem contDiff_cellPiece (R : Int → Int → ℝ) (j j' : Int) (n : WithTop ℕ∞) :
    ContDiff ℝ n (cellPiece R j j') := by
  unfold cellPiece
  simp only [lbb, lbbCoefficients]
  fun_prop

/-- On each closed half-pixel cell the sampler's LBB-Nohalo value is the cell's piece of the
Nohalo refinement. -/
theorem newvalAt_eq_cellPiece {image : Int → Int → Fin 4 → ℝ} {getPtr : Int → Int → Int → ℝ}
    (fetches : Fetches image getPtr) (k : Fin 4) {j j' : Int} {x y : ℝ} (hx : x ∈ halfCell j)
    (hy : y ∈ halfCell j') :
    newvalAt getPtr x y k = cellPiece (refined fun a b => image a b k) j j' (x, y) := by
  rw [newvalAt_eq_cell fetches k hx hy,
    lbbNohalo_eq_window fetches _ _ _ _ (cellSign_unit j) (cellSign_unit j'), cellPiece]
  push_cast
  rfl

section Seams

variable (p : Int → Int → ℝ)

/-- At a pixel column, the pieces on its two sides have the same derivative. -/
theorem fderiv_cellPiece_signX (m j' : Int) (y : ℝ) :
    fderiv ℝ (cellPiece (refined p) (2 * m) j') (m, y) =
      fderiv ℝ (cellPiece (refined p) (2 * m - 1) j') (m, y) := by
  obtain ⟨h00, h01⟩ := window_signX_corners (refined p) (2 * m) (2 * cellAnchor j') (cellSign j')
  apply fderiv_eq_of_sub_eq_sq_mul ((contDiff_cellPiece _ _ _ 1).differentiable le_rfl _)
    (e := fun w => 2 * (w.1 - m)) (by fun_prop) (by simp)
  · intro w
    simp only [cellPiece, cellAnchor_two_mul, cellSign_two_mul, cellAnchor_two_mul_sub_one,
      cellSign_two_mul_sub_one, Int.cast_one, Int.cast_neg, mul_one, mul_neg, neg_mul]
    exact lbb_sub_mirrorX_left h00 h01 _ _
  · simp only [hermiteQuotientZero, Corner.valueAlongY, Corner.slopeAlongY, hermite]
    fun_prop

/-- Halfway between two pixel columns, the pieces on its two sides have the same derivative. -/
theorem fderiv_cellPiece_anchorX (m j' : Int) (y : ℝ) :
    fderiv ℝ (cellPiece (refined p) (2 * m + 1) j') ((m : ℝ) + 1 / 2, y) =
      fderiv ℝ (cellPiece (refined p) (2 * m) j') ((m : ℝ) + 1 / 2, y) := by
  have near := refined_mem_uIcc p m (cellAnchor j') (cellSign j') (cellSign_unit j')
  have far := refined_mem_uIcc p (m + 1) (cellAnchor j') (cellSign j') (cellSign_unit j')
  rw [mul_add_one] at far
  obtain ⟨h10, h11⟩ :=
    window_anchorX_corners (refined p) (2 * m) (2 * cellAnchor j') (cellSign j') near far
  symm
  apply fderiv_eq_of_sub_eq_sq_mul ((contDiff_cellPiece _ _ _ 1).differentiable le_rfl _)
    (e := fun w => 2 * (w.1 - m) - 1) (by fun_prop) (by norm_num)
  · intro w
    simp only [cellPiece, cellAnchor_two_mul, cellSign_two_mul, cellAnchor_two_mul_add_one,
      cellSign_two_mul_add_one, Int.cast_one, Int.cast_neg, Int.cast_add, mul_one, mul_neg,
      neg_mul, mul_add_one]
    rw [show -(2 * (w.1 - (m + 1))) = 2 - 2 * (w.1 - m) by ring]
    exact lbb_sub_mirrorX_right far h10 h11 _ _
  · simp only [hermiteQuotientOne, Corner.valueAlongY, Corner.slopeAlongY, hermite]
    fun_prop

/-- At a pixel row, the pieces on its two sides have the same derivative. -/
theorem fderiv_cellPiece_signY (j m : Int) (x : ℝ) :
    fderiv ℝ (cellPiece (refined p) j (2 * m)) (x, m) =
      fderiv ℝ (cellPiece (refined p) j (2 * m - 1)) (x, m) := by
  obtain ⟨h00, h10⟩ := window_signY_corners (refined p) (2 * cellAnchor j) (2 * m) (cellSign j)
  apply fderiv_eq_of_sub_eq_sq_mul ((contDiff_cellPiece _ _ _ 1).differentiable le_rfl _)
    (e := fun w => 2 * (w.2 - m)) (by fun_prop) (by simp)
  · intro w
    simp only [cellPiece, cellAnchor_two_mul, cellSign_two_mul, cellAnchor_two_mul_sub_one,
      cellSign_two_mul_sub_one, Int.cast_one, Int.cast_neg, mul_one, mul_neg, neg_mul]
    exact lbb_sub_mirrorY_top h00 h10 _ _
  · simp only [hermiteQuotientZero, Corner.valueAlongX, Corner.slopeAlongX, hermite]
    fun_prop

/-- Halfway between two pixel rows, the pieces on its two sides have the same derivative. -/
theorem fderiv_cellPiece_anchorY (j m : Int) (x : ℝ) :
    fderiv ℝ (cellPiece (refined p) j (2 * m + 1)) (x, (m : ℝ) + 1 / 2) =
      fderiv ℝ (cellPiece (refined p) j (2 * m)) (x, (m : ℝ) + 1 / 2) := by
  obtain ⟨h01, h11⟩ := window_anchorY_corners (refined p) (2 * cellAnchor j) (2 * m) (cellSign j)
  have column := window_refined_column p (cellAnchor j) m (cellSign j) (Or.inl rfl)
  symm
  apply fderiv_eq_of_sub_eq_sq_mul ((contDiff_cellPiece _ _ _ 1).differentiable le_rfl _)
    (e := fun w => 2 * (w.2 - m) - 1) (by fun_prop) (by norm_num)
  · intro w
    simp only [cellPiece, cellAnchor_two_mul, cellSign_two_mul, cellAnchor_two_mul_add_one,
      cellSign_two_mul_add_one, Int.cast_one, Int.cast_neg, Int.cast_add, mul_one, mul_neg,
      neg_mul, mul_add_one]
    rw [show -(2 * (w.2 - (m + 1))) = 2 - 2 * (w.2 - m) by ring]
    exact lbb_sub_mirrorY_bottom column h01 h11 _ _
  · simp only [hermiteQuotientOne, Corner.valueAlongX, Corner.slopeAlongX, hermite]
    fun_prop

/-- Across every vertical seam of the half-pixel grid, the pieces on its two sides have the same
derivative all along it. -/
theorem fderiv_cellPiece_seamX (j j' : Int) (y : ℝ) :
    fderiv ℝ (cellPiece (refined p) (j + 1) j') (((j : ℝ) + 1) / 2, y) =
      fderiv ℝ (cellPiece (refined p) j j') (((j : ℝ) + 1) / 2, y) := by
  obtain ⟨m, rfl | rfl⟩ : ∃ m, j = 2 * m ∨ j = 2 * m - 1 := ⟨(j + 1) / 2, by omega⟩
  · rw [show (((2 * m : Int) : ℝ) + 1) / 2 = m + 1 / 2 by push_cast; ring]
    exact fderiv_cellPiece_anchorX p m j' y
  · rw [sub_add_cancel, show (((2 * m - 1 : Int) : ℝ) + 1) / 2 = m by push_cast; ring]
    exact fderiv_cellPiece_signX p m j' y

/-- Across every horizontal seam of the half-pixel grid, the pieces on its two sides have the same
derivative all along it. -/
theorem fderiv_cellPiece_seamY (j j' : Int) (x : ℝ) :
    fderiv ℝ (cellPiece (refined p) j (j' + 1)) (x, ((j' : ℝ) + 1) / 2) =
      fderiv ℝ (cellPiece (refined p) j j') (x, ((j' : ℝ) + 1) / 2) := by
  obtain ⟨m, rfl | rfl⟩ : ∃ m, j' = 2 * m ∨ j' = 2 * m - 1 := ⟨(j' + 1) / 2, by omega⟩
  · rw [show (((2 * m : Int) : ℝ) + 1) / 2 = m + 1 / 2 by push_cast; ring]
    exact fderiv_cellPiece_anchorY p j m x
  · rw [sub_add_cancel, show (((2 * m - 1 : Int) : ℝ) + 1) / 2 = m by push_cast; ring]
    exact fderiv_cellPiece_signY p j m x

end Seams

/-! ## LBB-Nohalo is C¹ with continuous cross derivatives -/

/-- For every fetched image, `newval[k]` is continuously differentiable in
`(absolute_x, absolute_y)`, across the sampler's seams included. -/
theorem newvalAt_contDiff {image : Int → Int → Fin 4 → ℝ} {getPtr : Int → Int → Int → ℝ}
    (fetches : Fetches image getPtr) (k : Fin 4) :
    ContDiff ℝ 1 fun z : ℝ × ℝ => newvalAt getPtr z.1 z.2 k :=
  contDiff_of_halfCells _ (fun j j' => contDiff_cellPiece _ j j' 2)
    (fun _ _ _ _ => newvalAt_eq_cellPiece fetches k) (fderiv_cellPiece_seamX _)
    (fderiv_cellPiece_seamY _)

theorem newvalAt_contDiff_product :
    Fetches (fun x y _ => ((x * y : Int) : ℝ)) (fetchPtr fun x y _ => ((x * y : Int) : ℝ)) ∧
      ContDiff ℝ 1 fun z : ℝ × ℝ =>
        newvalAt (fetchPtr fun x y _ => ((x * y : Int) : ℝ)) z.1 z.2 0 :=
  ⟨fetches_fetchPtr _, newvalAt_contDiff (fetches_fetchPtr fun x y _ => ((x * y : Int) : ℝ)) 0⟩

/-- For every fetched image, both mixed second derivatives of `newval[k]` exist at every position,
are equal, and vary continuously. -/
theorem newvalAt_crossDerivative {image : Int → Int → Fin 4 → ℝ} {getPtr : Int → Int → Int → ℝ}
    (fetches : Fetches image getPtr) (k : Fin 4) :
    ∃ cross : ℝ × ℝ → ℝ, Continuous cross ∧ ∀ z : ℝ × ℝ,
      HasDerivAt (fun x => fderiv ℝ (fun w : ℝ × ℝ => newvalAt getPtr w.1 w.2 k) (x, z.2) (0, 1))
          (cross z) z.1 ∧
        HasDerivAt (fun y => fderiv ℝ (fun w : ℝ × ℝ => newvalAt getPtr w.1 w.2 k) (z.1, y) (1, 0))
          (cross z) z.2 :=
  crossDerivative_of_halfCells _ (fun j j' => contDiff_cellPiece _ j j' 2)
    (fun _ _ _ _ => newvalAt_eq_cellPiece fetches k) (fderiv_cellPiece_seamX _)
    (fderiv_cellPiece_seamY _)

theorem newvalAt_crossDerivative_product :
    Fetches (fun x y _ => ((x * y : Int) : ℝ)) (fetchPtr fun x y _ => ((x * y : Int) : ℝ)) ∧
      ∃ cross : ℝ × ℝ → ℝ, Continuous cross ∧ ∀ z : ℝ × ℝ,
        HasDerivAt (fun x => fderiv ℝ (fun w : ℝ × ℝ =>
            newvalAt (fetchPtr fun x y _ => ((x * y : Int) : ℝ)) w.1 w.2 0) (x, z.2) (0, 1))
            (cross z) z.1 ∧
          HasDerivAt (fun y => fderiv ℝ (fun w : ℝ × ℝ =>
            newvalAt (fetchPtr fun x y _ => ((x * y : Int) : ℝ)) w.1 w.2 0) (z.1, y) (1, 0))
            (cross z) z.2 :=
  ⟨fetches_fetchPtr _,
    newvalAt_crossDerivative (fetches_fetchPtr fun x y _ => ((x * y : Int) : ℝ)) 0⟩

end Lohalo
end Gegl
