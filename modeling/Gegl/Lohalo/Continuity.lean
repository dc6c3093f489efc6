import Gegl.Lohalo.Seams

/-!
# Continuity of the LBB-Nohalo reconstruction

Over the reals the LBB-Nohalo value is continuous in the sampling position: on each closed
half-pixel cell it is one polynomial, and the four closed quadrants around a point each lie in one
cell, so the pieces glue.
-/

namespace Gegl
namespace Lohalo

open Set Filter Topology

/-- The closed half-pixel cell `[j / 2, (j + 1) / 2]`. -/
def halfCell (j : Int) : Set ℝ := Icc ((j : ℝ) / 2) (((j : ℝ) + 1) / 2)

/-- Just left of every point, the line lies in one half-pixel cell. -/
theorem eventually_mem_halfCell_left (a : ℝ) : ∃ j : Int, ∀ᶠ x in 𝓝[Iic a] a, x ∈ halfCell j := by
  refine ⟨⌈2 * a⌉ - 1, mem_nhdsWithin.2 ⟨Ioi (((⌈2 * a⌉ - 1 : Int) : ℝ) / 2), isOpen_Ioi, ?_, ?_⟩⟩
  · have := Int.ceil_lt_add_one (2 * a)
    simp only [mem_Ioi, Int.cast_sub, Int.cast_one]
    linarith
  · rintro x ⟨left, right⟩
    have := Int.le_ceil (2 * a)
    simp only [mem_Ioi, Int.cast_sub, Int.cast_one, mem_Iic] at left right
    simp only [halfCell, Int.cast_sub, Int.cast_one, mem_Icc]
    constructor <;> linarith

/-- Just right of every point, the line lies in one half-pixel cell. -/
theorem eventually_mem_halfCell_right (a : ℝ) :
    ∃ j : Int, ∀ᶠ x in 𝓝[Ici a] a, x ∈ halfCell j := by
  refine ⟨⌊2 * a⌋, mem_nhdsWithin.2 ⟨Iio ((((⌊2 * a⌋ : Int) : ℝ) + 1) / 2), isOpen_Iio, ?_, ?_⟩⟩
  · have := Int.lt_floor_add_one (2 * a)
    simp only [mem_Iio]
    linarith
  · rintro x ⟨right, left⟩
    have := Int.floor_le (2 * a)
    simp only [mem_Iio, mem_Ici] at left right
    simp only [halfCell, mem_Icc]
    constructor <;> linarith

/-- The four closed quadrants around a point cover the plane. -/
theorem quadrants_cover (a b : ℝ) :
    (Iic a ×ˢ Iic b ∪ Iic a ×ˢ Ici b) ∪ (Ici a ×ˢ Iic b ∪ Ici a ×ˢ Ici b) = univ := by
  rw [← prod_union, ← prod_union, ← union_prod, Iic_union_Ici, Iic_union_Ici, univ_prod_univ]

/-- Near a point, each closed quadrant around it lies in one product of half-pixel cells, which
holds the point. -/
theorem eventually_mem_halfCells {a b : ℝ} {s t : Set ℝ} (hs : s = Iic a ∨ s = Ici a)
    (ht : t = Iic b ∨ t = Ici b) :
    ∃ j j' : Int, (a ∈ halfCell j ∧ b ∈ halfCell j') ∧
      ∀ᶠ w in 𝓝[s ×ˢ t] (a, b), w.1 ∈ halfCell j ∧ w.2 ∈ halfCell j' := by
  have side : ∀ {c : ℝ} {s : Set ℝ}, (s = Iic c ∨ s = Ici c) →
      c ∈ s ∧ ∃ j : Int, ∀ᶠ x in 𝓝[s] c, x ∈ halfCell j := by
    rintro c s (rfl | rfl)
    · exact ⟨right_mem_Iic, eventually_mem_halfCell_left c⟩
    · exact ⟨left_mem_Ici, eventually_mem_halfCell_right c⟩
  obtain ⟨ha, j, hj⟩ := side hs
  obtain ⟨hb, j', hj'⟩ := side ht
  refine ⟨j, j', ⟨hj.self_of_nhdsWithin ha, hj'.self_of_nhdsWithin hb⟩, ?_⟩
  rw [nhdsWithin_prod_eq]
  exact hj.prod_mk hj'

/-- A function on the plane that agrees, on each product of closed half-pixel cells, with a
continuous piece, is continuous. -/
theorem continuous_of_halfCells {E : Type} [TopologicalSpace E] {f : ℝ × ℝ → E}
    (piece : Int → Int → ℝ × ℝ → E) (continuous_piece : ∀ j j', Continuous (piece j j'))
    (agree : ∀ j j' x y, x ∈ halfCell j → y ∈ halfCell j' → f (x, y) = piece j j' (x, y)) :
    Continuous f := by
  refine continuous_iff_continuousAt.2 fun ⟨a, b⟩ => ?_
  have quadrant : ∀ {s t : Set ℝ}, (s = Iic a ∨ s = Ici a) → (t = Iic b ∨ t = Ici b) →
      ContinuousWithinAt f (s ×ˢ t) (a, b) := by
    intro s t hs ht
    obtain ⟨j, j', ⟨ha, hb⟩, near⟩ := eventually_mem_halfCells hs ht
    exact (continuous_piece j j').continuousAt.continuousWithinAt.congr_of_eventuallyEq
      (near.mono fun w hw => agree j j' w.1 w.2 hw.1 hw.2) (agree j j' a b ha hb)
  rw [← continuousWithinAt_univ, ← quadrants_cover a b]
  exact ((quadrant (.inl rfl) (.inl rfl)).union (quadrant (.inl rfl) (.inr rfl))).union
    ((quadrant (.inr rfl) (.inl rfl)).union (quadrant (.inr rfl) (.inr rfl)))

/-- For a fixed patch, LBB is a polynomial in the relative position. -/
theorem continuous_lbb (P : Patch ℝ) {X Y : ℝ × ℝ → ℝ} (hX : Continuous X) (hY : Continuous Y) :
    Continuous fun z => lbb (lbbCoefficients (X z) (Y z)) P := by
  simp only [lbb, lbbCoefficients]
  fun_prop

/-- For every fetched image, `newval[k]` is continuous in `(absolute_x, absolute_y)`: on each line
where the anchor or the sign changes, both sides give the same value. -/
theorem newvalAt_seamless (image : Int → Int → Fin 4 → ℝ) (getPtr : Int → Int → Int → ℝ)
    (fetches : Fetches image getPtr) (k : Fin 4) :
    (∀ (ix iy sy : Int) (y0 : ℝ), (sy = 1 ∨ sy = -1) →
        lbbNohalo (getPtr ix iy) 1 sy 0 y0 k = lbbNohalo (getPtr ix iy) (-1) sy 0 y0 k ∧
        lbbNohalo (getPtr ix iy) 1 sy (1 / 2) y0 k =
          lbbNohalo (getPtr (ix + 1) iy) (-1) sy (-1 / 2) y0 k) ∧
      (∀ (ix iy sx : Int) (x0 : ℝ), (sx = 1 ∨ sx = -1) →
        lbbNohalo (getPtr ix iy) sx 1 x0 0 k = lbbNohalo (getPtr ix iy) sx (-1) x0 0 k ∧
        lbbNohalo (getPtr ix iy) sx 1 x0 (1 / 2) k =
          lbbNohalo (getPtr ix (iy + 1)) sx (-1) x0 (-1 / 2) k) ∧
      Continuous fun z : ℝ × ℝ => newvalAt getPtr z.1 z.2 k :=
  ⟨fun ix iy sy y0 hy => ⟨lbbNohalo_signX fetches k ix iy sy hy y0,
      lbbNohalo_anchorX fetches k ix iy sy hy y0⟩,
    fun ix iy sx x0 hx => ⟨lbbNohalo_signY fetches k ix iy sx hx x0,
      lbbNohalo_anchorY fetches k ix iy sx hx x0⟩,
    continuous_of_halfCells
      (fun j j' z => lbbNohalo (getPtr (cellAnchor j) (cellAnchor j')) (cellSign j) (cellSign j')
        (z.1 - cellAnchor j) (z.2 - cellAnchor j') k)
      (fun _ _ => continuous_lbb _ (by fun_prop) (by fun_prop))
      (fun _ _ _ _ hx hy => newvalAt_eq_cell fetches k hx hy)⟩

theorem newvalAt_seamless_product :
    Fetches (fun x y _ => ((x * y : Int) : ℝ)) (fetchPtr fun x y _ => ((x * y : Int) : ℝ)) ∧
      (∀ (ix iy sy : Int) (y0 : ℝ), (sy = 1 ∨ sy = -1) →
        lbbNohalo (fetchPtr (fun x y _ => ((x * y : Int) : ℝ)) ix iy) 1 sy 0 y0 0 =
          lbbNohalo (fetchPtr (fun x y _ => ((x * y : Int) : ℝ)) ix iy) (-1) sy 0 y0 0 ∧
        lbbNohalo (fetchPtr (fun x y _ => ((x * y : Int) : ℝ)) ix iy) 1 sy (1 / 2) y0 0 =
          lbbNohalo (fetchPtr (fun x y _ => ((x * y : Int) : ℝ)) (ix + 1) iy) (-1) sy (-1 / 2)
            y0 0) ∧
      (∀ (ix iy sx : Int) (x0 : ℝ), (sx = 1 ∨ sx = -1) →
        lbbNohalo (fetchPtr (fun x y _ => ((x * y : Int) : ℝ)) ix iy) sx 1 x0 0 0 =
          lbbNohalo (fetchPtr (fun x y _ => ((x * y : Int) : ℝ)) ix iy) sx (-1) x0 0 0 ∧
        lbbNohalo (fetchPtr (fun x y _ => ((x * y : Int) : ℝ)) ix iy) sx 1 x0 (1 / 2) 0 =
          lbbNohalo (fetchPtr (fun x y _ => ((x * y : Int) : ℝ)) ix (iy + 1)) sx (-1) x0 (-1 / 2)
            0) ∧
      Continuous fun z : ℝ × ℝ =>
        newvalAt (fetchPtr fun x y _ => ((x * y : Int) : ℝ)) z.1 z.2 0 :=
  ⟨fetches_fetchPtr _, newvalAt_seamless _ _ (fetches_fetchPtr _) 0⟩

end Lohalo
end Gegl
