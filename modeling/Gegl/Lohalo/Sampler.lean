import Gegl.Lohalo.Lbb
import Gegl.Lohalo.Ewa

/-!
# `gegl_sampler_lohalo_get`

The sampler anchors the point at the nearest pixel, reflects the stencil, and computes LBB of
the Nohalo subdivision, blended with the EWA average when the Jacobian shrinks a direction.
`getPtr ix iy` is the memory `gegl_sampler_get_ptr` points into, which is not in the sources, and
the bounding-box test is a parameter, as the source leaves `ellipse_a`, `_b` and `_c` undeclared.
-/

namespace Gegl
namespace Lohalo

open Set

variable {K : Type} [LinearOrderedField K] [FloorRing K]

/-- The C conversion `(gint) x`, which truncates toward zero. -/
def toInt (x : K) : Int := if 0 ≤ x then ⌊x⌋ else ⌈x⌉

/-- `LOHALO_FAST_PSEUDO_FLOOR (x)`: the floor, except one less at negative integers. -/
def fastPseudoFloor (x : K) : Int := toInt x - if x < 0 then 1 else 0

theorem fastPseudoFloor_le (x : K) : (fastPseudoFloor x : K) ≤ x ∧ x ≤ fastPseudoFloor x + 1 := by
  unfold fastPseudoFloor toInt
  rcases le_or_lt 0 x with nonneg | neg
  · simp only [if_pos nonneg, if_neg (not_lt.2 nonneg), sub_zero]
    exact ⟨Int.floor_le x, (Int.lt_floor_add_one x).le⟩
  · simp only [if_neg (not_le.2 neg), if_pos neg, Int.cast_sub, Int.cast_one, sub_add_cancel]
    exact ⟨by linarith [Int.ceil_lt_add_one x], Int.le_ceil x⟩

/-- `ix_0` and `iy_0`: the anchor pixel of a coordinate. -/
def anchor (absolute : K) : Int := fastPseudoFloor (absolute + 1 / 2)

/-- `x_0` and `y_0`: the position relative to the anchor pixel. -/
def offset (absolute : K) : K := absolute - anchor absolute

/-- `sign_of_x_0` and `sign_of_y_0`. -/
def signOf (x0 : K) : Int := 2 * (if x0 ≥ 0 then 1 else 0) - 1

/-- The sampling point is at box distance at most one half from its anchor. -/
theorem abs_offset_le (absolute : K) : |offset absolute| ≤ 1 / 2 := by
  obtain ⟨low, high⟩ := fastPseudoFloor_le (absolute + 1 / 2)
  unfold offset anchor
  rw [abs_le]
  constructor <;> linarith

/-- `xp1over2`, twice the reflected offset, lies in `[0, 1]`. -/
theorem reflected_mem_Icc (absolute : K) :
    ((2 * signOf (offset absolute) : Int) : K) * offset absolute ∈ Icc 0 1 := by
  obtain ⟨low, high⟩ := abs_le.1 (abs_offset_le absolute)
  unfold signOf
  split_ifs with nonneg
  · norm_num; constructor <;> linarith
  · norm_num; constructor <;> linarith

/-- The 21 values of channel `k` that `nohalo_subdivision` reads, through `input_bptr` at the
shifts of the stencil reflected by the signs. -/
def stencil (inputBptr : Int → K) (signOfX0 signOfY0 : Int) (k : Fin 4) : Stencil K :=
  let shiftForw1Pix := signOfX0 * channels
  let shiftForw1Row := signOfY0 * rowSkip
  let shiftBack1Pix := -shiftForw1Pix
  let shiftBack1Row := -shiftForw1Row
  let shiftBack2Pix := 2 * shiftBack1Pix
  let shiftBack2Row := 2 * shiftBack1Row
  let shiftForw2Pix := 2 * shiftForw1Pix
  let shiftForw2Row := 2 * shiftForw1Row
  let read (shift : Int) : K := inputBptr (shift + k.val)
  { unoTwo := read (shiftBack1Pix + shiftBack2Row), unoThr := read shiftBack2Row,
    unoFou := read (shiftForw1Pix + shiftBack2Row), dosOne := read (shiftBack2Pix + shiftBack1Row),
    dosTwo := read (shiftBack1Pix + shiftBack1Row), dosThr := read shiftBack1Row,
    dosFou := read (shiftForw1Pix + shiftBack1Row), dosFiv := read (shiftForw2Pix + shiftBack1Row),
    treOne := read shiftBack2Pix, treTwo := read shiftBack1Pix, treThr := read 0,
    treFou := read shiftForw1Pix, treFiv := read shiftForw2Pix,
    quaOne := read (shiftBack2Pix + shiftForw1Row), quaTwo := read (shiftBack1Pix + shiftForw1Row),
    quaThr := read shiftForw1Row, quaFou := read (shiftForw1Pix + shiftForw1Row),
    quaFiv := read (shiftForw2Pix + shiftForw1Row), cinTwo := read (shiftBack1Pix + shiftForw2Row),
    cinThr := read shiftForw2Row, cinFou := read (shiftForw1Pix + shiftForw2Row) }

/-- `newval` before any blending: for each channel, LBB with the coefficients of
`xp1over2 = 2 * sign_of_x_0 * x_0` and `yp1over2` applied to the Nohalo subdivision. -/
def lbbNohalo (inputBptr : Int → K) (signOfX0 signOfY0 : Int) (x0 y0 : K) : Fin 4 → K :=
  let xp1over2 := ((2 * signOfX0 : Int) : K) * x0
  let yp1over2 := ((2 * signOfY0 : Int) : K) * y0
  fun k => lbb (lbbCoefficients xp1over2 yp1over2)
    (nohaloSubdivision (stencil inputBptr signOfX0 signOfY0 k))

/-- The stencil the sampler reads for channel `k` at a sampling point. -/
def stencilAt (getPtr : Int → Int → Int → K) (absoluteX absoluteY : K) (k : Fin 4) : Stencil K :=
  stencil (getPtr (anchor absoluteX) (anchor absoluteY)) (signOf (offset absoluteX))
    (signOf (offset absoluteY)) k

/-- The LBB-Nohalo value the sampler computes at a sampling point. -/
def newvalAt (getPtr : Int → Int → Int → K) (absoluteX absoluteY : K) : Fin 4 → K :=
  lbbNohalo (getPtr (anchor absoluteX) (anchor absoluteY)) (signOf (offset absoluteX))
    (signOf (offset absoluteY)) (offset absoluteX) (offset absoluteY)

/-- Channel `k` of the pixel at `offset` from the anchor, as `ewa_update` reads it. -/
def pixelAt (getPtr : Int → Int → Int → K) (absoluteX absoluteY : K) (offset : Int × Int)
    (k : Fin 4) : K :=
  getPtr (anchor absoluteX) (anchor absoluteY) (offset.1 * channels + offset.2 * rowSkip + k.val)

/-! ## The sampler -/

/-- `LOHALO_FUDGE`. -/
def fudge : K := 1 / 1000000

/-- `gegl_sampler_lohalo_get`: the value shipped out through `output`, or `none` where the
source reaches its unfinished mipmap branch. -/
def get (root : Sqrt K) (getPtr : Int → Int → Int → K) (inverseJacobian : Jacobian K)
    (boundingBoxFits : Bool) (absoluteX absoluteY : K) : Option (Fin 4 → K) :=
  let inputBptr := getPtr (anchor absoluteX) (anchor absoluteY)
  let x0 := offset absoluteX
  let y0 := offset absoluteY
  let newval := newvalAt getPtr absoluteX absoluteY
  let ellipse := axes root inverseJacobian
  if ellipse.twiceS1s1 < 2 + fudge then some newval
  else
    let accumulated := ewaOffsets.foldl (ewaUpdate root ellipse x0 y0 inputBptr) ⟨0, fun _ => 0⟩
    let theta := 1 / ellipse.ellipseF
    if boundingBoxFits then
      let beta := (1 - theta) / accumulated.totalWeight
      some fun k => theta * newval k + beta * accumulated.ewaNewval k
    else none

/-- Each channel of the LBB-Nohalo value lies in every interval holding the 21 values it reads,
that is, between their minimum and their maximum. -/
theorem newvalAt_mem_Icc (getPtr : Int → Int → Int → K) (absoluteX absoluteY : K) (k : Fin 4)
    {L H : K} (within : ∀ v ∈ (stencilAt getPtr absoluteX absoluteY k).values, v ∈ Icc L H) :
    newvalAt getPtr absoluteX absoluteY k ∈ Icc L H :=
  lbb_mem_Icc (reflected_mem_Icc absoluteX) (reflected_mem_Icc absoluteY)
    (nohaloSubdivision_mem_Icc _ within) (treFou_mem_uIcc _)

/-- The LBB-Nohalo value of every channel lies between the minimum and the maximum of the 21
values it reads, and it is what the sampler ships out when `twice_s1s1 < 2 + LOHALO_FUDGE`. -/
theorem get_lbbNohalo_bounded (root : Sqrt K) (getPtr : Int → Int → Int → K)
    (inverseJacobian : Jacobian K) (boundingBoxFits : Bool) (absoluteX absoluteY : K) :
    (∀ (k : Fin 4) (L H : K), (∀ v ∈ (stencilAt getPtr absoluteX absoluteY k).values, v ∈ Icc L H) →
      newvalAt getPtr absoluteX absoluteY k ∈ Icc L H) ∧
    ((axes root inverseJacobian).twiceS1s1 < 2 + fudge →
      get root getPtr inverseJacobian boundingBoxFits absoluteX absoluteY =
        some (newvalAt getPtr absoluteX absoluteY)) :=
  ⟨fun k _ _ within => newvalAt_mem_Icc getPtr absoluteX absoluteY k within,
    fun pure => by dsimp only [get]; rw [if_pos pure]⟩

/-! ## The EWA blend -/

theorem offset_near (absoluteX absoluteY : K) :
    offset absoluteX * offset absoluteX + offset absoluteY * offset absoluteY < 1 := by
  have x_near := abs_offset_le absoluteX
  have y_near := abs_offset_le absoluteY
  have x_sq := mul_le_mul x_near x_near (abs_nonneg _) (by norm_num)
  have y_sq := mul_le_mul y_near y_near (abs_nonneg _) (by norm_num)
  rw [abs_mul_abs_self] at x_sq y_sq
  linarith

section Blend

variable (root : Sqrt K) (getPtr : Int → Int → Int → K) (inverseJacobian : Jacobian K)
  (boundingBoxFits : Bool) (absoluteX absoluteY : K)

/-- The normalised teepee weights of the 25 pixels. -/
def averageWeight (offset' : Int × Int) : K :=
  ewaWeight root (axes root inverseJacobian) (offset absoluteX) (offset absoluteY) offset' /
    (ewaOffsets.map (ewaWeight root (axes root inverseJacobian) (offset absoluteX)
      (offset absoluteY))).sum

theorem averageWeight_nonneg (o : Int × Int) :
    0 ≤ averageWeight root inverseJacobian absoluteX absoluteY o :=
  div_nonneg (teepee_nonneg _ _ _ _ _ _ _)
    (ewaWeights_sum_pos root inverseJacobian (offset_near absoluteX absoluteY)).le

theorem averageWeight_sum :
    (ewaOffsets.map (averageWeight root inverseJacobian absoluteX absoluteY)).sum = 1 := by
  unfold averageWeight
  simp only [div_eq_mul_inv, List.sum_map_mul_right]
  exact mul_inv_cancel₀ (ewaWeights_sum_pos root inverseJacobian
    (offset_near absoluteX absoluteY)).ne'

/-- Every channel the sampler ships out is a convex combination of the LBB-Nohalo value and a
non-negatively weighted average of the 25 pixels of the block. -/
theorem get_eq_convex {out : Fin 4 → K}
    (shipped : get root getPtr inverseJacobian boundingBoxFits absoluteX absoluteY = some out)
    (k : Fin 4) :
    ∃ θ ∈ Icc (0 : K) 1, out k = θ * newvalAt getPtr absoluteX absoluteY k + (1 - θ) *
      (ewaOffsets.map fun o => averageWeight root inverseJacobian absoluteX absoluteY o *
        pixelAt getPtr absoluteX absoluteY o k).sum := by
  dsimp only [get] at shipped
  split_ifs at shipped with pure fits
  · cases shipped
    exact ⟨1, ⟨zero_le_one, le_rfl⟩, by ring⟩
  · cases shipped
    refine ⟨_, Ioc_subset_Icc_self (theta_mem_Ioc root inverseJacobian), ?_⟩
    dsimp only
    rw [foldl_ewaUpdate_ewaNewval, foldl_ewaUpdate_totalWeight, zero_add, zero_add]
    unfold averageWeight pixelAt
    rw [sum_map_div_mul]
    ring

/-- The EWA part is well defined at every inverse Jacobian and point: square roots of
non-negative numbers, axes at least one, a positive total weight, `theta` in `(0, 1]`, and every
shipped channel a convex combination of LBB-Nohalo and a weighted average of the block. -/
theorem get_ewa_well_defined :
    0 ≤ (axes root inverseJacobian).discriminant ∧ 0 ≤ (axes root inverseJacobian).s2s2 ∧
      1 ≤ (axes root inverseJacobian).majorMag ∧ 1 ≤ (axes root inverseJacobian).minorMag ∧
      0 < (ewaOffsets.foldl (ewaUpdate root (axes root inverseJacobian) (offset absoluteX)
        (offset absoluteY) (getPtr (anchor absoluteX) (anchor absoluteY)))
          ⟨0, fun _ => 0⟩).totalWeight ∧
      1 / (axes root inverseJacobian).ellipseF ∈ Ioc 0 1 ∧
      ∀ out, get root getPtr inverseJacobian boundingBoxFits absoluteX absoluteY = some out →
        ∀ k : Fin 4,
          (∃ θ ∈ Icc (0 : K) 1, out k = θ * newvalAt getPtr absoluteX absoluteY k + (1 - θ) *
            (ewaOffsets.map fun o => averageWeight root inverseJacobian absoluteX absoluteY o *
              pixelAt getPtr absoluteX absoluteY o k).sum) ∧
          ∀ L H : K, (∀ v ∈ (stencilAt getPtr absoluteX absoluteY k).values, v ∈ Icc L H) →
            (∀ o ∈ ewaOffsets, pixelAt getPtr absoluteX absoluteY o k ∈ Icc L H) →
            out k ∈ Icc L H := by
  refine ⟨discriminant_nonneg root inverseJacobian, s2s2_nonneg root inverseJacobian,
    one_le_majorMag root inverseJacobian, one_le_minorMag root inverseJacobian, ?_,
    theta_mem_Ioc root inverseJacobian, fun out shipped k => ?_⟩
  · rw [foldl_ewaUpdate_totalWeight, zero_add]
    exact ewaWeights_sum_pos root inverseJacobian (offset_near absoluteX absoluteY)
  obtain ⟨θ, share, blend⟩ :=
    get_eq_convex root getPtr inverseJacobian boundingBoxFits absoluteX absoluteY shipped k
  refine ⟨⟨θ, share, blend⟩, fun L H stencilWithin pixelsWithin => ?_⟩
  have average := sum_map_mul_mem_Icc ewaOffsets
    (averageWeight root inverseJacobian absoluteX absoluteY)
    (fun o => pixelAt getPtr absoluteX absoluteY o k)
    (fun o _ => averageWeight_nonneg root inverseJacobian absoluteX absoluteY o) pixelsWithin
  rw [averageWeight_sum, one_mul, one_mul] at average
  rw [blend]
  exact convex_mem_Icc share (newvalAt_mem_Icc getPtr absoluteX absoluteY k stencilWithin) average

end Blend

end Lohalo
end Gegl
