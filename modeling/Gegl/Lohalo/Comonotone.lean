import Gegl.Lohalo.Lbb

/-!
# The Nohalo data that LBB assumes

`lbb`'s comment says its input comes from Nohalo subdivision, so that the shortened
`m13 = min (dos_fou, qua_fou)` and `M13` change no result. Both hold: `nohalo_subdivision` returns
co-monotone patches, and on those the 34 comparisons of `lbb` give every 3x3 block's extrema.
-/

namespace Gegl
namespace Lohalo

open Set

variable {K : Type} [LinearOrderedField K]

namespace Patch

variable (p : Patch K)

/-- The co-monotonicity that the comment of `lbb` assumes of its 16 values. -/
structure Comonotone : Prop where
  dosThr_mem : p.dosThr ∈ uIcc p.dosTwo p.dosFou
  treTwo_mem : p.treTwo ∈ uIcc p.dosTwo p.quaTwo
  treFou_mem : p.treFou ∈ uIcc p.dosFou p.quaFou
  quaThr_mem : p.quaThr ∈ uIcc p.quaTwo p.quaFou
  treThr_mem : p.treThr ∈ Icc (min (min p.dosTwo p.dosFou) (min p.quaTwo p.quaFou))
    (max (max p.dosTwo p.dosFou) (max p.quaTwo p.quaFou))

/-- The nine values of the 3x3 block around `dos_two`. -/
def block00 : List K :=
  [p.unoOne, p.unoTwo, p.unoThr, p.dosOne, p.dosTwo, p.dosThr, p.treOne, p.treTwo, p.treThr]

/-- The nine values of the 3x3 block around `dos_thr`. -/
def block10 : List K :=
  [p.unoTwo, p.unoThr, p.unoFou, p.dosTwo, p.dosThr, p.dosFou, p.treTwo, p.treThr, p.treFou]

/-- The nine values of the 3x3 block around `tre_two`. -/
def block01 : List K :=
  [p.dosOne, p.dosTwo, p.dosThr, p.treOne, p.treTwo, p.treThr, p.quaOne, p.quaTwo, p.quaThr]

/-- The nine values of the 3x3 block around `tre_thr`. -/
def block11 : List K :=
  [p.dosTwo, p.dosThr, p.dosFou, p.treTwo, p.treThr, p.treFou, p.quaTwo, p.quaThr, p.quaFou]

/-- The minimum and the maximum of each 3x3 block, which the comment of `lbb` says its
comparisons compute. -/
def blockExtrema : Extrema K :=
  { min00 := p.block00.foldr min p.dosTwo, max00 := p.block00.foldr max p.dosTwo,
    min10 := p.block10.foldr min p.dosThr, max10 := p.block10.foldr max p.dosThr,
    min01 := p.block01.foldr min p.treTwo, max01 := p.block01.foldr max p.treTwo,
    min11 := p.block11.foldr min p.treThr, max11 := p.block11.foldr max p.treThr }

end Patch

/-- `lbb` with the block minima and maxima `e` in place of those it computes: each corner keeps
its value and raw derivatives and takes its block range from `e`. -/
def lbbWith (c : Coefficients K) (p : Patch K) (e : Extrema K) : K :=
  let corner00 : Corner K := { p.corner00 with low := e.min00, high := e.max00 }
  let corner10 : Corner K := { p.corner10 with low := e.min10, high := e.max10 }
  let corner01 : Corner K := { p.corner01 with low := e.min01, high := e.max01 }
  let corner11 : Corner K := { p.corner11 with low := e.min11, high := e.max11 }
  let newval1 := c.c00 * p.dosTwo + c.c10 * p.dosThr + c.c01 * p.treTwo + c.c11 * p.treThr
  let newval2 :=
    c.c00dx * corner00.dzdx + c.c10dx * corner10.dzdx + c.c01dx * corner01.dzdx +
      c.c11dx * corner11.dzdx + c.c00dy * corner00.dzdy + c.c10dy * corner10.dzdy +
      c.c01dy * corner01.dzdy + c.c11dy * corner11.dzdy
  let newval3 :=
    c.c00dxdy * corner00.d2zdxdy + c.c10dxdy * corner10.d2zdxdy +
      c.c01dxdy * corner01.d2zdxdy + c.c11dxdy * corner11.d2zdxdy
  newval1 + 1 / 2 * newval2 + 1 / 4 * newval3

/-- `lbb` is `lbbWith` of the extrema its own comparisons compute. -/
theorem lbbWith_extrema (c : Coefficients K) (p : Patch K) : lbbWith c p p.extrema = lbb c p :=
  rfl

theorem min_min_of_mem_uIcc {a b c : K} (between : b ∈ uIcc a c) : min (min a b) c = min a c := by
  rw [min_right_comm, min_eq_left between.1]

theorem max_max_of_mem_uIcc {a b c : K} (between : b ∈ uIcc a c) : max (max a b) c = max a c := by
  rw [sup_right_comm, max_eq_left between.2]

/-- On a co-monotone patch the comparisons of `lbb` compute every 3x3 block's extrema, the block
of `tre_thr` included, as `tre_fou` lies between `dos_fou` and `qua_fou`. -/
theorem Patch.Comonotone.extrema_eq {p : Patch K} (comonotone : p.Comonotone) :
    p.extrema = p.blockExtrema := by
  have low := min_min_of_mem_uIcc comonotone.treFou_mem
  have high := max_max_of_mem_uIcc comonotone.treFou_mem
  ext <;>
  simp only [Patch.extrema, Patch.blockExtrema, Patch.block00, Patch.block10, Patch.block01,
    Patch.block11, List.foldr, ← low, ← high] <;>
  apply le_antisymm <;>
  simp only [le_min_iff, max_le_iff] <;>
  simp only [min_le_iff, le_max_iff, le_refl, or_true, true_or, and_self]

/-- On a co-monotone patch, `lbb` is LBB with the full block ranges. -/
theorem Patch.Comonotone.lbb_eq {p : Patch K} (comonotone : p.Comonotone) (c : Coefficients K) :
    lbb c p = lbbWith c p p.blockExtrema := by
  rw [← comonotone.extrema_eq, lbbWith_extrema]

/-- `nohalo_subdivision` returns a co-monotone patch: its four edge values lie between the two
pixels of their edge, and its centre value in the range of the four pixels of its cell. -/
theorem nohaloSubdivision_comonotone (s : Stencil K) : (nohaloSubdivision s).Comonotone where
  dosThr_mem := dosThr_mem_uIcc s
  treTwo_mem := treTwo_mem_uIcc s
  treFou_mem := treFou_mem_uIcc s
  quaThr_mem := quaThr_mem_uIcc s
  treThr_mem := by
    show _ ∈ Icc (min (min s.treThr s.treFou) (min s.quaThr s.quaFou))
      (max (max s.treThr s.treFou) (max s.quaThr s.quaFou))
    refine treThr_mem_Icc s ?_ ?_ ?_ ?_ <;>
    exact ⟨by simp only [min_le_iff, le_refl, true_or, or_true],
      by simp only [le_max_iff, le_refl, true_or, or_true]⟩

/-- On the values `nohalo_subdivision` returns, the shortened `m13` and `M13` equal the full ones,
and `lbb` is LBB with the full 3x3 block ranges. -/
theorem lbb_nohaloSubdivision_eq_full (s : Stencil K) :
    (nohaloSubdivision s).Comonotone ∧
      min (nohaloSubdivision s).dosFou (nohaloSubdivision s).quaFou =
        min (min (nohaloSubdivision s).dosFou (nohaloSubdivision s).treFou)
          (nohaloSubdivision s).quaFou ∧
      max (nohaloSubdivision s).dosFou (nohaloSubdivision s).quaFou =
        max (max (nohaloSubdivision s).dosFou (nohaloSubdivision s).treFou)
          (nohaloSubdivision s).quaFou ∧
      (nohaloSubdivision s).extrema = (nohaloSubdivision s).blockExtrema ∧
      ∀ c : Coefficients K,
        lbb c (nohaloSubdivision s) =
          lbbWith c (nohaloSubdivision s) (nohaloSubdivision s).blockExtrema :=
  have comonotone := nohaloSubdivision_comonotone s
  ⟨comonotone, (min_min_of_mem_uIcc comonotone.treFou_mem).symm,
    (max_max_of_mem_uIcc comonotone.treFou_mem).symm, comonotone.extrema_eq, comonotone.lbb_eq⟩

end Lohalo
end Gegl
