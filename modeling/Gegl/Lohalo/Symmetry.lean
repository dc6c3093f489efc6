import Gegl.Lohalo.Seams

/-!
# Symmetries and locality of the Lohalo sampler

The sampler reads its stencil in the directions of the offsets' signs, so one code path serves
four quadrants. Translating, mirroring or transposing the image moves the value with it, though
`LOHALO_FAST_PSEUDO_FLOOR` is not the floor; and the sampler reads only the 5x5 block.
-/

namespace Gegl
namespace Lohalo

open Set

variable {K : Type} [LinearOrderedField K]

/-- The isometry `a ↦ n + s a` of the line, for a unit `s`, maps every half-pixel cell onto a
cell, with its anchor and its sign times `s`. -/
theorem cell_isometry {s : Int} (unit : s = 1 ∨ s = -1) (n j : Int) :
    ∃ J : Int, (∀ a : K, a ∈ Icc ((j : K) / 2) (((j : K) + 1) / 2) →
        (n : K) + s * a ∈ Icc ((J : K) / 2) (((J : K) + 1) / 2)) ∧
      cellAnchor J = n + s * cellAnchor j ∧ cellSign J = s * cellSign j := by
  rcases unit with rfl | rfl
  · refine ⟨j + 2 * n, fun a cell => ?_, by unfold cellAnchor; omega, ?_⟩
    · push_cast
      exact ⟨by linarith only [cell.1], by linarith only [cell.2]⟩
    · unfold cellSign
      split_ifs <;> omega
  · refine ⟨2 * n - j - 1, fun a cell => ?_, by unfold cellAnchor; omega, ?_⟩
    · push_cast
      exact ⟨by linarith only [cell.2], by linarith only [cell.1]⟩
    · unfold cellSign
      split_ifs <;> omega

variable [FloorRing K]

omit [FloorRing K] in
/-- The window of the refinement of an image read from `(ix, iy)` in the directions `sx` and `sy`
is a window of the refinement of the image itself. -/
theorem window_refined_reflect (p : Int → Int → K) (ix iy : Int) {sx sy : Int}
    (hx : sx = 1 ∨ sx = -1) (hy : sy = 1 ∨ sy = -1) (u v tx ty : Int) :
    window (refined fun a b => p (ix + sx * a) (iy + sy * b)) u v tx ty =
      window (refined p) (2 * ix + sx * u) (2 * iy + sy * v) (sx * tx) (sy * ty) := by
  ext <;> simp only [window, refined_reflect p ix iy sx sy hx hy] <;> congr 1 <;> ring

omit [FloorRing K] in
/-- Moving a position by `a ↦ n + s a` moves its offset from the moved anchor by `s`, which the
doubled sign `2 s t` of the moved cell takes back. -/
theorem isometry_offset {s : Int} (unit : s = 1 ∨ s = -1) (n t c : Int) (a : K) :
    ((2 * (s * t) : Int) : K) * ((n : K) + s * a - ((n + s * c : Int) : K)) =
      ((2 * t : Int) : K) * (a - c) := by
  rcases unit with rfl | rfl <;> push_cast <;> ring

variable {image : Int → Int → Fin 4 → K} {getPtr getPtr' : Int → Int → Int → K}

/-- For every image, translating it by whole pixels or mirroring it about a pixel column or row
moves the LBB-Nohalo value with it, at every sampling position. -/
theorem newvalAt_isometry (fetches : Fetches image getPtr) {sx sy : Int} (hx : sx = 1 ∨ sx = -1)
    (hy : sy = 1 ∨ sy = -1) (n m : Int)
    (fetches' : Fetches (fun x y => image (n + sx * x) (m + sy * y)) getPtr')
    (absoluteX absoluteY : K) (k : Fin 4) :
    newvalAt getPtr' absoluteX absoluteY k =
      newvalAt getPtr (n + sx * absoluteX) (m + sy * absoluteY) k := by
  obtain ⟨j, cellX⟩ := exists_mem_cell absoluteX
  obtain ⟨j', cellY⟩ := exists_mem_cell absoluteY
  obtain ⟨J, mapX, anchorX, signX⟩ := cell_isometry (K := K) hx n j
  obtain ⟨J', mapY, anchorY, signY⟩ := cell_isometry (K := K) hy m j'
  rw [newvalAt_eq_cell fetches' k cellX cellY,
    newvalAt_eq_cell fetches k (mapX _ cellX) (mapY _ cellY),
    lbbNohalo_eq_window fetches' _ _ _ _ (cellSign_unit j) (cellSign_unit j'),
    lbbNohalo_eq_window fetches _ _ _ _ (cellSign_unit J) (cellSign_unit J'), anchorX, anchorY,
    signX, signY, isometry_offset hx, isometry_offset hy,
    window_refined_reflect (fun x y => image x y k) n m hx hy]
  congr 2 <;> ring

theorem newvalAt_isometry_mirror :
    Fetches (fun x y _ => ((x * y : Int) : ℚ)) (fetchPtr fun x y _ => ((x * y : Int) : ℚ)) ∧
      ((-1 : Int) = 1 ∨ (-1 : Int) = -1) ∧ ((1 : Int) = 1 ∨ (1 : Int) = -1) ∧
      Fetches (fun x y _ => (((3 + -1 * x) * (-2 + 1 * y) : Int) : ℚ))
        (fetchPtr fun x y _ => (((3 + -1 * x) * (-2 + 1 * y) : Int) : ℚ)) ∧
      newvalAt (fetchPtr fun x y _ => (((3 + -1 * x) * (-2 + 1 * y) : Int) : ℚ)) (1 / 3) (5 / 4)
          0 =
        newvalAt (fetchPtr fun x y _ => ((x * y : Int) : ℚ))
          (((3 : Int) : ℚ) + ((-1 : Int) : ℚ) * (1 / 3))
          (((-2 : Int) : ℚ) + ((1 : Int) : ℚ) * (5 / 4)) 0 :=
  ⟨fetches_fetchPtr _, Or.inr rfl, Or.inl rfl, fetches_fetchPtr _,
    newvalAt_isometry (fetches_fetchPtr fun x y _ => ((x * y : Int) : ℚ)) (Or.inr rfl) (Or.inl rfl)
      3 (-2) (fetches_fetchPtr _) (1 / 3) (5 / 4) 0⟩

omit [LinearOrderedField K] [FloorRing K] in
/-- The stencil read around an anchor depends on the 5x5 block of the image only. -/
theorem gridStencil_congr {q q' : Int → Int → K}
    (agree : ∀ a b : Int, |a| ≤ 2 → |b| ≤ 2 → q a b = q' a b) : gridStencil q = gridStencil q' := by
  ext <;> simp only [gridStencil] <;> exact agree _ _ (by norm_num) (by norm_num)

omit [FloorRing K] in
theorem abs_le_two_of_mem_ewaOffsets {offset : Int × Int} (mem : offset ∈ ewaOffsets) :
    |offset.1| ≤ 2 ∧ |offset.2| ≤ 2 := by
  revert offset
  decide

/-- Two images that agree on the 5x5 block around the anchor give the same output, in both
branches and whatever their memory layout. -/
theorem get_local {image' : Int → Int → Fin 4 → K} (fetches : Fetches image getPtr)
    (fetches' : Fetches image' getPtr') (absoluteX absoluteY : K)
    (agree : ∀ dx dy : Int, |dx| ≤ 2 → |dy| ≤ 2 →
      image (anchor absoluteX + dx) (anchor absoluteY + dy) =
        image' (anchor absoluteX + dx) (anchor absoluteY + dy))
    (root : Sqrt K) (inverseJacobian : Jacobian K) (boundingBoxFits : Bool) :
    get root getPtr inverseJacobian boundingBoxFits absoluteX absoluteY =
      get root getPtr' inverseJacobian boundingBoxFits absoluteX absoluteY := by
  have hx := signOf_unit (offset absoluteX)
  have hy := signOf_unit (offset absoluteY)
  have newval : newvalAt getPtr absoluteX absoluteY = newvalAt getPtr' absoluteX absoluteY := by
    funext k
    simp only [newvalAt, lbbNohalo, stencil_eq_gridStencil fetches _ _ _ _ hx hy,
      stencil_eq_gridStencil fetches' _ _ _ _ hx hy]
    rw [gridStencil_congr fun a b ha hb =>
      congrFun (agree _ _ (abs_unit_mul_le hx ha) (abs_unit_mul_le hy hb)) k]
  have ewa : ∀ acc, ewaOffsets.foldl (ewaUpdate root (axes root inverseJacobian)
      (offset absoluteX) (offset absoluteY) (getPtr (anchor absoluteX) (anchor absoluteY))) acc =
      ewaOffsets.foldl (ewaUpdate root (axes root inverseJacobian) (offset absoluteX)
        (offset absoluteY) (getPtr' (anchor absoluteX) (anchor absoluteY))) acc := by
    refine fun acc => List.foldl_ext _ _ _ fun acc o mem => ?_
    obtain ⟨hj, hi⟩ := abs_le_two_of_mem_ewaOffsets mem
    simp only [ewaUpdate, fetches _ _ _ _ _ hj hi, fetches' _ _ _ _ _ hj hi, agree _ _ hj hi]
  simp only [get, newval, ewa]

theorem get_local_far_change :
    Fetches (fun x y _ => ((x * y : Int) : ℝ)) (fetchPtr fun x y _ => ((x * y : Int) : ℝ)) ∧
      Fetches (fun x y _ => if x = 50 then 7 else ((x * y : Int) : ℝ))
        (fetchPtr fun x y _ => if x = 50 then 7 else ((x * y : Int) : ℝ)) ∧
      (∀ dx dy : Int, |dx| ≤ 2 → |dy| ≤ 2 →
        (fun _ : Fin 4 => (((anchor (0 : ℝ) + dx) * (anchor (0 : ℝ) + dy) : Int) : ℝ)) =
          fun _ => if anchor (0 : ℝ) + dx = 50 then 7 else
            (((anchor (0 : ℝ) + dx) * (anchor (0 : ℝ) + dy) : Int) : ℝ)) ∧
      ∀ (inverseJacobian : Jacobian ℝ) (boundingBoxFits : Bool),
        get Sqrt.real (fetchPtr fun x y _ => ((x * y : Int) : ℝ)) inverseJacobian boundingBoxFits
            0 0 =
          get Sqrt.real (fetchPtr fun x y _ => if x = 50 then 7 else ((x * y : Int) : ℝ))
            inverseJacobian boundingBoxFits 0 0 := by
  have agree : ∀ dx dy : Int, |dx| ≤ 2 → |dy| ≤ 2 →
      (fun _ : Fin 4 => (((anchor (0 : ℝ) + dx) * (anchor (0 : ℝ) + dy) : Int) : ℝ)) =
        fun _ => if anchor (0 : ℝ) + dx = 50 then 7 else
          (((anchor (0 : ℝ) + dx) * (anchor (0 : ℝ) + dy) : Int) : ℝ) := by
    intro dx dy near _
    have origin : anchor (0 : ℝ) = 0 := by
      norm_num [anchor, fastPseudoFloor, toInt, Int.floor_eq_zero_iff]
    rw [origin, zero_add, if_neg (by rw [abs_le] at near; omega)]
  exact ⟨fetches_fetchPtr _, fetches_fetchPtr _, agree,
    get_local (fetches_fetchPtr fun x y _ => ((x * y : Int) : ℝ)) (fetches_fetchPtr _) 0 0 agree
      Sqrt.real⟩

/-! ## Transposition

`lbb` reads the block of `tre_thr` without `tre_fou`, so it is symmetric in its axes only where
neither reading omits an extremum, which the Nohalo refinement guarantees. -/

/-- The 4x4 stencil read with its rows and columns exchanged. -/
def Patch.transpose (p : Patch K) : Patch K :=
  { unoOne := p.unoOne, unoTwo := p.dosOne, unoThr := p.treOne, unoFou := p.quaOne,
    dosOne := p.unoTwo, dosTwo := p.dosTwo, dosThr := p.treTwo, dosFou := p.quaTwo,
    treOne := p.unoThr, treTwo := p.dosThr, treThr := p.treThr, treFou := p.quaThr,
    quaOne := p.unoFou, quaTwo := p.dosFou, quaThr := p.treFou, quaFou := p.quaFou }

omit [FloorRing K] in
theorem limitCross_neg (q twelveSum twelveDif uTimes36 vTimes36 : K) :
    limitCross q twelveSum (-twelveDif) uTimes36 vTimes36 =
      limitCross q twelveSum twelveDif uTimes36 vTimes36 := by
  simp only [limitCross, abs_neg]

omit [FloorRing K] in
/-- A corner read with its axes exchanged has its clamped first derivatives exchanged and the same
cross derivative. -/
theorem Corner.swap_derivatives (c c' : Corner K) (value : c.value = c'.value)
    (low : c.low = c'.low) (high : c.high = c'.high) (dx : c.dzdxi = c'.dzdyi)
    (dy : c.dzdyi = c'.dzdxi) (dxy : c.d2zdxdyi = c'.d2zdxdyi) :
    c.dzdx = c'.dzdy ∧ c.dzdy = c'.dzdx ∧ c.d2zdxdy = c'.d2zdxdy := by
  have u : c.u = c'.u := by simp only [Corner.u, value, low]
  have v : c.v = c'.v := by simp only [Corner.v, value, high]
  have limit : c.slopeLimit = c'.slopeLimit := by rw [Corner.slopeLimit, Corner.slopeLimit, u, v]
  have hx : c.dzdx = c'.dzdy := by rw [Corner.dzdx, Corner.dzdy, limit, dx]
  have hy : c.dzdy = c'.dzdx := by rw [Corner.dzdy, Corner.dzdx, limit, dy]
  refine ⟨hx, hy, ?_⟩
  rw [Corner.d2zdxdy, Corner.d2zdxdy, hx, hy, dxy, u, v, add_comm c'.dzdy,
    ← neg_sub c'.dzdx c'.dzdy, mul_neg, limitCross_neg]

namespace Patch

variable (p : Patch K)

omit [FloorRing K] in
/-- The blocks of the transposed stencil are the transposed blocks: the corners on the diagonal
keep theirs, `dos_thr` and `tre_two` exchange them. -/
theorem transpose_extrema :
    p.transpose.extrema.min00 = p.extrema.min00 ∧ p.transpose.extrema.max00 = p.extrema.max00 ∧
      p.transpose.extrema.min10 = p.extrema.min01 ∧ p.transpose.extrema.max10 = p.extrema.max01 ∧
      p.transpose.extrema.min01 = p.extrema.min10 ∧
      p.transpose.extrema.max01 = p.extrema.max10 := by
  refine ⟨?_, ?_, ?_, ?_, ?_, ?_⟩ <;> simp only [extrema, transpose] <;> ac_rfl

omit [FloorRing K] in
/-- Where `tre_fou` lies between `dos_fou` and `qua_fou`, the shortened block of `tre_thr` has the
extrema of the whole block. -/
theorem extrema11_of_treFou_mem (between : p.treFou ∈ uIcc p.dosFou p.quaFou) :
    min p.extrema.min11 p.treFou = p.extrema.min11 ∧
      max p.extrema.max11 p.treFou = p.extrema.max11 :=
  ⟨min_eq_left (min_le_of_right_le between.1), max_eq_left (le_max_of_le_right between.2)⟩

omit [FloorRing K] in
theorem transpose_extrema11 (column : p.treFou ∈ uIcc p.dosFou p.quaFou)
    (row : p.quaThr ∈ uIcc p.quaTwo p.quaFou) :
    p.transpose.extrema.min11 = p.extrema.min11 ∧ p.transpose.extrema.max11 = p.extrema.max11 := by
  obtain ⟨min11, max11⟩ := p.extrema11_of_treFou_mem column
  obtain ⟨min11', max11'⟩ := p.transpose.extrema11_of_treFou_mem row
  rw [← min11, ← max11, ← min11', ← max11']
  constructor <;> simp only [extrema, transpose] <;> ac_rfl

end Patch

omit [FloorRing K] in
/-- LBB is symmetric in the axes of its stencil where `tre_fou` lies between `dos_fou` and
`qua_fou`, and `qua_thr` between `qua_two` and `qua_fou`. -/
theorem lbb_transpose (p : Patch K) (X Y : K) (column : p.treFou ∈ uIcc p.dosFou p.quaFou)
    (row : p.quaThr ∈ uIcc p.quaTwo p.quaFou) :
    lbb (lbbCoefficients X Y) p.transpose = lbb (lbbCoefficients Y X) p := by
  obtain ⟨min00, max00, min10, max10, min01, max01⟩ := p.transpose_extrema
  obtain ⟨min11, max11⟩ := p.transpose_extrema11 column row
  obtain ⟨dx00, dy00, dxy00⟩ := Corner.swap_derivatives p.transpose.corner00 p.corner00 rfl min00
    max00 rfl rfl (by simp only [Patch.corner00, Patch.transpose]; ring)
  obtain ⟨dx10, dy10, dxy10⟩ := Corner.swap_derivatives p.transpose.corner10 p.corner01 rfl min10
    max10 rfl rfl (by simp only [Patch.corner10, Patch.corner01, Patch.transpose]; ring)
  obtain ⟨dx01, dy01, dxy01⟩ := Corner.swap_derivatives p.transpose.corner01 p.corner10 rfl min01
    max01 rfl rfl (by simp only [Patch.corner10, Patch.corner01, Patch.transpose]; ring)
  obtain ⟨dx11, dy11, dxy11⟩ := Corner.swap_derivatives p.transpose.corner11 p.corner11 rfl min11
    max11 rfl rfl (by simp only [Patch.corner11, Patch.transpose]; ring)
  simp only [lbb, dx00, dy00, dxy00, dx10, dy10, dxy10, dx01, dy01, dxy01, dx11, dy11, dxy11]
  simp only [Patch.transpose, lbbCoefficients]
  ring

omit [FloorRing K] in
theorem window_refined_transpose (p : Int → Int → K) (u v sx sy : Int) :
    window (refined fun a b => p b a) u v sx sy = (window (refined p) v u sy sx).transpose := by
  simp only [window, refined_transpose, Patch.transpose]

omit [FloorRing K] in
/-- On the pixel column of the sampler's window, the refinement lies between its neighbours. -/
theorem window_refined_column (p : Int → Int → K) (ix iy sx : Int) {sy : Int}
    (hy : sy = 1 ∨ sy = -1) :
    (window (refined p) (2 * ix) (2 * iy) sx sy).treFou ∈
      uIcc (window (refined p) (2 * ix) (2 * iy) sx sy).dosFou
        (window (refined p) (2 * ix) (2 * iy) sx sy).quaFou := by
  simp only [window]
  rw [show 2 * ix + 2 * sx = 2 * (ix + sx) by ring]
  exact refined_mem_uIcc p _ iy sy hy

omit [FloorRing K] in
/-- On the pixel row of the sampler's window, the refinement lies between its neighbours. -/
theorem window_refined_row (p : Int → Int → K) (ix iy : Int) {sx : Int} (hx : sx = 1 ∨ sx = -1)
    (sy : Int) :
    (window (refined p) (2 * ix) (2 * iy) sx sy).quaThr ∈
      uIcc (window (refined p) (2 * ix) (2 * iy) sx sy).quaTwo
        (window (refined p) (2 * ix) (2 * iy) sx sy).quaFou := by
  simpa only [window, refined_transpose, mul_add] using
    refined_mem_uIcc (fun a b => p b a) (iy + sy) ix sx hx

/-- For every image, exchanging its columns and rows exchanges the coordinates of the LBB-Nohalo
value, at every sampling position. -/
theorem newvalAt_transpose (fetches : Fetches image getPtr)
    (fetches' : Fetches (fun x y => image y x) getPtr') (absoluteX absoluteY : K) (k : Fin 4) :
    newvalAt getPtr' absoluteX absoluteY k = newvalAt getPtr absoluteY absoluteX k := by
  obtain ⟨j, cellX⟩ := exists_mem_cell absoluteX
  obtain ⟨j', cellY⟩ := exists_mem_cell absoluteY
  rw [newvalAt_eq_cell fetches' k cellX cellY, newvalAt_eq_cell fetches k cellY cellX,
    lbbNohalo_eq_window fetches' _ _ _ _ (cellSign_unit j) (cellSign_unit j'),
    lbbNohalo_eq_window fetches _ _ _ _ (cellSign_unit j') (cellSign_unit j),
    window_refined_transpose (fun x y => image x y k)]
  exact lbb_transpose _ _ _ (window_refined_column _ _ _ _ (cellSign_unit j))
    (window_refined_row _ _ _ (cellSign_unit j') _)

theorem newvalAt_transpose_quadratic :
    Fetches (fun x y _ => ((x * x - y : Int) : ℚ)) (fetchPtr fun x y _ => ((x * x - y : Int) : ℚ)) ∧
      Fetches (fun x y _ => ((y * y - x : Int) : ℚ))
        (fetchPtr fun x y _ => ((y * y - x : Int) : ℚ)) ∧
      newvalAt (fetchPtr fun x y _ => ((y * y - x : Int) : ℚ)) (1 / 3) (-5 / 4) 0 =
        newvalAt (fetchPtr fun x y _ => ((x * x - y : Int) : ℚ)) (-5 / 4) (1 / 3) 0 :=
  ⟨fetches_fetchPtr _, fetches_fetchPtr _,
    newvalAt_transpose (fetches_fetchPtr fun x y _ => ((x * x - y : Int) : ℚ)) (fetches_fetchPtr _)
      (1 / 3) (-5 / 4) 0⟩

end Lohalo
end Gegl
