import Gegl.Lohalo.Subdivision

/-!
# The Nohalo refinement of an image

The values `nohalo_subdivision` computes at half-pixel positions do not depend on the anchor or
reflection computing them: `refined p u v` is the value at `(u / 2, v / 2)`, and the sampler's
patch is a 4x4 window of it. The refinement commutes with translations, reflections and transpose.
-/

namespace Gegl
namespace Lohalo

open Set

variable {K : Type} [LinearOrderedField K]

/-- `LOHALO_MINMOD (a, b, a * a, a * b)`: every caller passes the square of its first difference
and the product of the two. -/
def minmodOf (a b : K) : K := minmod a b (a * a) (a * b)

@[simp]
theorem minmod_mul_self (a b : K) : minmod a b (a * a) (a * b) = minmodOf a b := rfl

@[simp]
theorem minmod_mul_self_comm (a b : K) : minmod a b (a * a) (b * a) = minmodOf a b := by
  rw [mul_comm b a]; rfl

theorem minmodOf_comm (a b : K) : minmodOf a b = minmodOf b a := minmod_comm a b

theorem minmodOf_neg (a b : K) : minmodOf (-a) (-b) = -minmodOf a b := by
  unfold minmodOf minmod
  simp only [neg_mul_neg]
  split_ifs <;> simp

/-- Read backwards, the two differences around a value swap and change sign. -/
theorem minmodOf_reverse (a b c : K) : minmodOf (a - b) (c - a) = -minmodOf (a - c) (b - a) := by
  rw [← minmodOf_neg, neg_sub, neg_sub, minmodOf_comm]

section Image

variable (p : Int → Int → K)

/-- The minmod slope along the row through pixel `(x, y)`. -/
def slopeX (x y : Int) : K := minmodOf (p x y - p (x - 1) y) (p (x + 1) y - p x y)

/-- The minmod slope along the column through pixel `(x, y)`. -/
def slopeY (x y : Int) : K := minmodOf (p x y - p x (y - 1)) (p x (y + 1) - p x y)

/-- The refined value half a pixel to the right of `(x, y)`. -/
def edgeX (x y : Int) : K :=
  1 / 2 * (p x y + p (x + 1) y) + 1 / 4 * (slopeX p x y - slopeX p (x + 1) y)

/-- The refined value half a pixel below `(x, y)`. -/
def edgeY (x y : Int) : K :=
  1 / 2 * (p x y + p x (y + 1)) + 1 / 4 * (slopeY p x y - slopeY p x (y + 1))

/-- The refined value at the centre of the cell to the bottom right of `(x, y)`, in the form of
`nohalo_subdivision`'s `newval_tre_thr`. -/
def centre (x y : Int) : K :=
  1 / 8 * (slopeX p x y - slopeX p (x + 1) y + (slopeX p x (y + 1) - slopeX p (x + 1) (y + 1))) +
    1 / 2 * (edgeY p x y + edgeY p (x + 1) y)

/-- The refinement at doubled coordinates: pixels at even ones, edge values where one coordinate
is odd, centre values where both are. -/
def refined (u v : Int) : K :=
  if u % 2 = 0 then
    if v % 2 = 0 then p (u / 2) (v / 2) else edgeY p (u / 2) (v / 2)
  else if v % 2 = 0 then edgeX p (u / 2) (v / 2) else centre p (u / 2) (v / 2)

@[simp]
theorem refined_even_even (x y : Int) : refined p (2 * x) (2 * y) = p x y := by
  simp only [refined, Int.mul_emod_right, if_true, Int.mul_ediv_cancel_left _ two_ne_zero]

@[simp]
theorem refined_even_odd (x y : Int) : refined p (2 * x) (2 * y + 1) = edgeY p x y := by
  rw [refined, if_pos (by omega), if_neg (by omega), show 2 * x / 2 = x by omega,
    show (2 * y + 1) / 2 = y by omega]

@[simp]
theorem refined_odd_even (x y : Int) : refined p (2 * x + 1) (2 * y) = edgeX p x y := by
  rw [refined, if_neg (by omega), if_pos (by omega), show (2 * x + 1) / 2 = x by omega,
    show 2 * y / 2 = y by omega]

@[simp]
theorem refined_odd_odd (x y : Int) : refined p (2 * x + 1) (2 * y + 1) = centre p x y := by
  rw [refined, if_neg (by omega), if_neg (by omega), show (2 * x + 1) / 2 = x by omega,
    show (2 * y + 1) / 2 = y by omega]

/-- Pixels at even or odd doubled coordinates. -/
theorem refined_cases (u v : Int) :
    ∃ x y : Int, (u = 2 * x ∨ u = 2 * x + 1) ∧ (v = 2 * y ∨ v = 2 * y + 1) :=
  ⟨u / 2, v / 2, by omega, by omega⟩

end Image

section Symmetry

variable (p : Int → Int → K)

theorem slopeX_translate (ix iy x y : Int) :
    slopeX (fun a b => p (ix + a) (iy + b)) x y = slopeX p (ix + x) (iy + y) := by
  simp only [slopeX, add_sub_assoc, add_assoc]

theorem slopeY_translate (ix iy x y : Int) :
    slopeY (fun a b => p (ix + a) (iy + b)) x y = slopeY p (ix + x) (iy + y) := by
  simp only [slopeY, add_sub_assoc, add_assoc]

theorem edgeX_translate (ix iy x y : Int) :
    edgeX (fun a b => p (ix + a) (iy + b)) x y = edgeX p (ix + x) (iy + y) := by
  simp only [edgeX, slopeX_translate, add_assoc]

theorem edgeY_translate (ix iy x y : Int) :
    edgeY (fun a b => p (ix + a) (iy + b)) x y = edgeY p (ix + x) (iy + y) := by
  simp only [edgeY, slopeY_translate, add_assoc]

theorem centre_translate (ix iy x y : Int) :
    centre (fun a b => p (ix + a) (iy + b)) x y = centre p (ix + x) (iy + y) := by
  simp only [centre, slopeX_translate, edgeY_translate, add_assoc]

/-- Refining a translated image is translating the refinement by twice as much. -/
theorem refined_translate (ix iy u v : Int) :
    refined (fun a b => p (ix + a) (iy + b)) u v = refined p (2 * ix + u) (2 * iy + v) := by
  obtain ⟨x, y, rfl | rfl, rfl | rfl⟩ := refined_cases u v
  · rw [← mul_add, ← mul_add, refined_even_even, refined_even_even]
  · rw [← mul_add, ← add_assoc, ← mul_add, refined_even_odd, refined_even_odd, edgeY_translate]
  · rw [← add_assoc, ← mul_add, ← mul_add, refined_odd_even, refined_odd_even, edgeX_translate]
  · rw [← add_assoc, ← mul_add, ← add_assoc, ← mul_add, refined_odd_odd, refined_odd_odd,
      centre_translate]

theorem slopeX_reflectX (x y : Int) : slopeX (fun a b => p (-a) b) x y = -slopeX p (-x) y := by
  simp only [slopeX]
  rw [minmodOf_reverse, show -(x - 1) = -x + 1 by ring, show -(x + 1) = -x - 1 by ring]

theorem edgeX_reflectX (x y : Int) : edgeX (fun a b => p (-a) b) x y = edgeX p (-x - 1) y := by
  simp only [edgeX, slopeX_reflectX, neg_add', sub_add_cancel]
  ring

theorem edgeY_reflectX (x y : Int) : edgeY (fun a b => p (-a) b) x y = edgeY p (-x) y := rfl

theorem centre_reflectX (x y : Int) : centre (fun a b => p (-a) b) x y = centre p (-x - 1) y := by
  simp only [centre, slopeX_reflectX, edgeY_reflectX, neg_add', sub_add_cancel]
  ring

/-- Refining a mirrored image is mirroring the refinement. -/
theorem refined_reflectX (u v : Int) : refined (fun a b => p (-a) b) u v = refined p (-u) v := by
  obtain ⟨x, y, rfl | rfl, rfl | rfl⟩ := refined_cases u v
  · rw [refined_even_even, ← mul_neg, refined_even_even]
  · rw [refined_even_odd, ← mul_neg, refined_even_odd, edgeY_reflectX]
  · rw [refined_odd_even, show -(2 * x + 1) = 2 * (-x - 1) + 1 by ring, refined_odd_even,
      edgeX_reflectX]
  · rw [refined_odd_odd, show -(2 * x + 1) = 2 * (-x - 1) + 1 by ring, refined_odd_odd,
      centre_reflectX]

theorem centre_transpose (x y : Int) : centre (fun a b => p b a) x y = centre p y x := by
  simp only [centre, edgeY, edgeX, slopeX, slopeY]
  ring

/-- Refining the transposed image is transposing the refinement. -/
theorem refined_transpose (u v : Int) : refined (fun a b => p b a) u v = refined p v u := by
  obtain ⟨x, y, rfl | rfl, rfl | rfl⟩ := refined_cases u v
  · rw [refined_even_even, refined_even_even]
  · rw [refined_even_odd, refined_odd_even]; rfl
  · rw [refined_odd_even, refined_even_odd]; rfl
  · rw [refined_odd_odd, refined_odd_odd, centre_transpose]

theorem refined_reflectY (u v : Int) : refined (fun a b => p a (-b)) u v = refined p u (-v) :=
  calc refined (fun a b => p a (-b)) u v
    _ = refined (fun a b => p b (-a)) v u := refined_transpose (fun a b => p b (-a)) u v
    _ = refined (fun a b => p b a) (-v) u := refined_reflectX (fun a b => p b a) v u
    _ = refined p u (-v) := refined_transpose p (-v) u

/-- Refining the image read `sx` and `sy` pixels at a time from an anchor, for unit steps, is
reading the refinement from twice the anchor in the same directions. -/
theorem refined_reflect (ix iy sx sy : Int) (hx : sx = 1 ∨ sx = -1) (hy : sy = 1 ∨ sy = -1)
    (u v : Int) :
    refined (fun a b => p (ix + sx * a) (iy + sy * b)) u v =
      refined p (2 * ix + sx * u) (2 * iy + sy * v) := by
  have translated := refined_translate p ix iy (sx * u) (sy * v)
  rcases hx with rfl | rfl <;> rcases hy with rfl | rfl <;>
  simp only [one_mul, neg_one_mul] at translated ⊢
  · exact translated
  · exact (refined_reflectY (fun a b => p (ix + a) (iy + b)) u v).trans translated
  · exact (refined_reflectX (fun a b => p (ix + a) (iy + b)) u v).trans translated
  · exact ((refined_reflectX (fun a b => p (ix + a) (iy + -b)) u v).trans
      (refined_reflectY (fun a b => p (ix + a) (iy + b)) (-u) v)).trans translated

end Symmetry

/-! ## The sampler's patch is a window of the refinement -/

/-- The stencil of `nohalo_subdivision` read from an image in the frame of its anchor: `q a b` is
the pixel `a` columns and `b` rows forward. -/
def gridStencil (q : Int → Int → K) : Stencil K :=
  { unoTwo := q (-1) (-2), unoThr := q 0 (-2), unoFou := q 1 (-2),
    dosOne := q (-2) (-1), dosTwo := q (-1) (-1), dosThr := q 0 (-1), dosFou := q 1 (-1),
    dosFiv := q 2 (-1),
    treOne := q (-2) 0, treTwo := q (-1) 0, treThr := q 0 0, treFou := q 1 0, treFiv := q 2 0,
    quaOne := q (-2) 1, quaTwo := q (-1) 1, quaThr := q 0 1, quaFou := q 1 1, quaFiv := q 2 1,
    cinTwo := q (-1) 2, cinThr := q 0 2, cinFou := q 1 2 }

/-- The 4x4 window of a grid at `(u, v)`, read `sx` columns and `sy` rows at a time: `dos_two` is
at `(u, v)`, `uno_one` one step back in both directions, `qua_fou` two steps forward. -/
def window (R : Int → Int → K) (u v sx sy : Int) : Patch K :=
  { unoOne := R (u - sx) (v - sy), unoTwo := R u (v - sy), unoThr := R (u + sx) (v - sy),
    unoFou := R (u + 2 * sx) (v - sy),
    dosOne := R (u - sx) v, dosTwo := R u v, dosThr := R (u + sx) v, dosFou := R (u + 2 * sx) v,
    treOne := R (u - sx) (v + sy), treTwo := R u (v + sy), treThr := R (u + sx) (v + sy),
    treFou := R (u + 2 * sx) (v + sy),
    quaOne := R (u - sx) (v + 2 * sy), quaTwo := R u (v + 2 * sy),
    quaThr := R (u + sx) (v + 2 * sy), quaFou := R (u + 2 * sx) (v + 2 * sy) }

section Grid

variable (q : Int → Int → K)

@[simp]
theorem gridStencil_dosThrY : (gridStencil q).dosThrY = slopeY q 0 (-1) := by
  simp only [Stencil.dosThrY, gridStencil, slopeY, minmod_mul_self, minmod_mul_self_comm,
    Int.reduceSub, Int.reduceAdd, minmodOf_comm]

@[simp]
theorem gridStencil_treThrY : (gridStencil q).treThrY = slopeY q 0 0 := by
  simp only [Stencil.treThrY, gridStencil, slopeY, minmod_mul_self, minmod_mul_self_comm,
    Int.reduceSub, Int.reduceAdd, minmodOf_comm]

@[simp]
theorem gridStencil_quaThrY : (gridStencil q).quaThrY = slopeY q 0 1 := by
  simp only [Stencil.quaThrY, gridStencil, slopeY, minmod_mul_self, minmod_mul_self_comm,
    Int.reduceSub, Int.reduceAdd, minmodOf_comm]

@[simp]
theorem gridStencil_treFouY : (gridStencil q).treFouY = slopeY q 1 0 := by
  simp only [Stencil.treFouY, gridStencil, slopeY, minmod_mul_self, minmod_mul_self_comm,
    Int.reduceSub, Int.reduceAdd, minmodOf_comm]

@[simp]
theorem gridStencil_quaFouY : (gridStencil q).quaFouY = slopeY q 1 1 := by
  simp only [Stencil.quaFouY, gridStencil, slopeY, minmod_mul_self, minmod_mul_self_comm,
    Int.reduceSub, Int.reduceAdd, minmodOf_comm]

@[simp]
theorem gridStencil_dosFouY : (gridStencil q).dosFouY = slopeY q 1 (-1) := by
  simp only [Stencil.dosFouY, gridStencil, slopeY, minmod_mul_self, minmod_mul_self_comm,
    Int.reduceSub, Int.reduceAdd, minmodOf_comm]

@[simp]
theorem gridStencil_treTwoX : (gridStencil q).treTwoX = slopeX q (-1) 0 := by
  simp only [Stencil.treTwoX, gridStencil, slopeX, minmod_mul_self, minmod_mul_self_comm,
    Int.reduceSub, Int.reduceAdd, minmodOf_comm]

@[simp]
theorem gridStencil_treThrX : (gridStencil q).treThrX = slopeX q 0 0 := by
  simp only [Stencil.treThrX, gridStencil, slopeX, minmod_mul_self, minmod_mul_self_comm,
    Int.reduceSub, Int.reduceAdd, minmodOf_comm]

@[simp]
theorem gridStencil_treFouX : (gridStencil q).treFouX = slopeX q 1 0 := by
  simp only [Stencil.treFouX, gridStencil, slopeX, minmod_mul_self, minmod_mul_self_comm,
    Int.reduceSub, Int.reduceAdd, minmodOf_comm]

@[simp]
theorem gridStencil_quaThrX : (gridStencil q).quaThrX = slopeX q 0 1 := by
  simp only [Stencil.quaThrX, gridStencil, slopeX, minmod_mul_self, minmod_mul_self_comm,
    Int.reduceSub, Int.reduceAdd, minmodOf_comm]

@[simp]
theorem gridStencil_quaFouX : (gridStencil q).quaFouX = slopeX q 1 1 := by
  simp only [Stencil.quaFouX, gridStencil, slopeX, minmod_mul_self, minmod_mul_self_comm,
    Int.reduceSub, Int.reduceAdd, minmodOf_comm]

@[simp]
theorem gridStencil_quaTwoX : (gridStencil q).quaTwoX = slopeX q (-1) 1 := by
  simp only [Stencil.quaTwoX, gridStencil, slopeX, minmod_mul_self, minmod_mul_self_comm,
    Int.reduceSub, Int.reduceAdd, minmodOf_comm]

@[simp]
theorem gridStencil_dosThrX : (gridStencil q).dosThrX = slopeX q 0 (-1) := by
  simp only [Stencil.dosThrX, gridStencil, slopeX, minmod_mul_self, minmod_mul_self_comm,
    Int.reduceSub, Int.reduceAdd, minmodOf_comm]

@[simp]
theorem gridStencil_dosFouX : (gridStencil q).dosFouX = slopeX q 1 (-1) := by
  simp only [Stencil.dosFouX, gridStencil, slopeX, minmod_mul_self, minmod_mul_self_comm,
    Int.reduceSub, Int.reduceAdd, minmodOf_comm]

@[simp]
theorem gridStencil_treTwoY : (gridStencil q).treTwoY = slopeY q (-1) 0 := by
  simp only [Stencil.treTwoY, gridStencil, slopeY, minmod_mul_self, minmod_mul_self_comm,
    Int.reduceSub, Int.reduceAdd, minmodOf_comm]

@[simp]
theorem gridStencil_quaTwoY : (gridStencil q).quaTwoY = slopeY q (-1) 1 := by
  simp only [Stencil.quaTwoY, gridStencil, slopeY, minmod_mul_self, minmod_mul_self_comm,
    Int.reduceSub, Int.reduceAdd, minmodOf_comm]

@[simp]
theorem gridStencil_dosTwoX : (gridStencil q).dosTwoX = slopeX q (-1) (-1) := by
  simp only [Stencil.dosTwoX, gridStencil, slopeX, minmod_mul_self, minmod_mul_self_comm,
    Int.reduceSub, Int.reduceAdd, minmodOf_comm]

@[simp]
theorem gridStencil_dosTwoY : (gridStencil q).dosTwoY = slopeY q (-1) (-1) := by
  simp only [Stencil.dosTwoY, gridStencil, slopeY, minmod_mul_self, minmod_mul_self_comm,
    Int.reduceSub, Int.reduceAdd, minmodOf_comm]

/-- In the frame of the anchor, `nohalo_subdivision` returns the window of the refinement at the
anchor: its twelve new values are the refinement's edge and centre values. -/
theorem nohaloSubdivision_gridStencil :
    nohaloSubdivision (gridStencil q) = window (refined q) 0 0 1 1 := by
  ext <;>
  simp only [nohaloSubdivision, gridStencil_dosThrY, gridStencil_treThrY, gridStencil_quaThrY,
    gridStencil_treFouY, gridStencil_quaFouY, gridStencil_dosFouY, gridStencil_treTwoX,
    gridStencil_treThrX, gridStencil_treFouX, gridStencil_quaThrX, gridStencil_quaFouX,
    gridStencil_quaTwoX, gridStencil_dosThrX, gridStencil_dosFouX, gridStencil_treTwoY,
    gridStencil_quaTwoY, gridStencil_dosTwoX, gridStencil_dosTwoY] <;>
  simp only [window, refined, Int.reduceSub, Int.reduceAdd, Int.reduceDiv, Int.reduceMod,
    Int.reduceMul, Int.reduceEq, ↓reduceIte] <;>
  simp only [gridStencil, edgeX, edgeY, centre, Int.reduceAdd] <;>
  ring

end Grid

/-- The patch the sampler computes at an anchor, for unit steps `sx` and `sy`, is the window of the
refinement of the image at twice the anchor, read in the directions of the steps. -/
theorem nohaloSubdivision_reflected (p : Int → Int → K) (ix iy sx sy : Int)
    (hx : sx = 1 ∨ sx = -1) (hy : sy = 1 ∨ sy = -1) :
    nohaloSubdivision (gridStencil fun a b => p (ix + sx * a) (iy + sy * b)) =
      window (refined p) (2 * ix) (2 * iy) sx sy := by
  rw [nohaloSubdivision_gridStencil]
  ext <;> simp only [window] <;> rw [refined_reflect p ix iy sx sy hx hy] <;> congr 1 <;> ring

/-! ## Co-monotonicity -/

theorem edgeY_mem_uIcc (p : Int → Int → K) (x y : Int) : edgeY p x y ∈ uIcc (p x y) (p x (y + 1)) :=
  edge_mem_uIcc (minmod_mem_uIcc_right _ _ rfl)
    (by rw [slopeY, add_sub_cancel_right]; exact minmod_mem_uIcc_left _ _ rfl)

/-- On a pixel column the refinement lies between the pixels above and below. -/
theorem refined_mem_uIcc (p : Int → Int → K) (x y sy : Int) (hy : sy = 1 ∨ sy = -1) :
    refined p (2 * x) (2 * y + sy) ∈
      uIcc (refined p (2 * x) (2 * y)) (refined p (2 * x) (2 * y + 2 * sy)) := by
  rcases hy with rfl | rfl
  · rw [refined_even_odd, refined_even_even, mul_one, ← mul_add_one, refined_even_even]
    exact edgeY_mem_uIcc p x y
  · rw [show 2 * y + -1 = 2 * (y - 1) + 1 by ring, refined_even_odd, refined_even_even,
      show 2 * y + 2 * -1 = 2 * (y - 1) by ring, refined_even_even, uIcc_comm]
    simpa using edgeY_mem_uIcc p x (y - 1)

end Lohalo
end Gegl
