import Mathlib

/-!
# The compositing formula tables

`svg-12-porter-duff.rb` and `other-blend.rb` generate one operation per row of their table `a`: a
colour formula over `cA cB aA aB` (`aux` is `A`, `in` is `B`), an alpha formula, and a SIMD
statement over `g4float` pixels, read lane-wise as `g4float.h` is not in the sources.
-/

namespace Gegl
namespace Compositor

/-- An `RaGaBaA` pixel; channel 3 is alpha. -/
abbrev Pixel (K : Type) := Fin 4 → K

variable {K : Type} [LinearOrderedField K]

namespace G4float

/-- `g4float_all (x)`: `x` in every lane. -/
def all (x : K) : Pixel K := fun _ => x

/-- `g4float_mul (v, x)`: every lane of `v` times `x`. -/
def mul (v : Pixel K) (x : K) : Pixel K := fun lane => v lane * x

/-- `g4floatA (v)` and `g4float_a (v)[3]`: the alpha lane. -/
def alpha (v : Pixel K) : K := v 3

/-- `g4floatA (*D) = x`: overwrite the alpha lane. -/
def setAlpha (v : Pixel K) (x : K) : Pixel K := Function.update v 3 x

end G4float

/-- A row of a generator's table. -/
structure Formula (K : Type) where
  name : String
  /-- `c_formula`, over `cA cB aA aB`. -/
  colour : K → K → K → K → K
  /-- `a_formula`, over `aA aB`. -/
  alpha : K → K → K
  /-- `sse_formula`: the value of `*D` from `*A` (aux) and `*B` (in). -/
  simd : Pixel K → Pixel K → Pixel K
  /-- `sse_formula` reads `*A`. -/
  simdReadsAux : Bool

namespace Formula

open G4float

/-- `clear`. -/
def clear : Formula K := ⟨"clear", fun _ _ _ _ => 0, fun _ _ => 0, fun _ _ => all 0, false⟩

/-- `src`. -/
def src : Formula K := ⟨"src", fun cA _ _ _ => cA, fun aA _ => aA, fun A _ => A, true⟩

/-- `dst`. -/
def dst : Formula K := ⟨"dst", fun _ cB _ _ => cB, fun _ aB => aB, fun _ B => B, false⟩

/-- `src_over`. -/
def srcOver : Formula K :=
  ⟨"src_over", fun cA cB aA _ => cA + cB * (1 - aA), fun aA aB => aA + aB - aA * aB,
    fun A B => A + mul B (1 - G4float.alpha A), true⟩

/-- `dst_over`. -/
def dstOver : Formula K :=
  ⟨"dst_over", fun cA cB _ aB => cB + cA * (1 - aB), fun aA aB => aA + aB - aA * aB,
    fun A B => B + mul A (1 - G4float.alpha B), true⟩

/-- `src_in`. -/
def srcIn : Formula K :=
  ⟨"src_in", fun cA _ _ aB => cA * aB, fun aA aB => aA * aB,
    fun A B => mul A (G4float.alpha B), true⟩

/-- `dst_in`. -/
def dstIn : Formula K :=
  ⟨"dst_in", fun _ cB aA _ => cB * aA, fun aA aB => aA * aB,
    fun A B => mul B (G4float.alpha A), true⟩

/-- `src_out`. -/
def srcOut : Formula K :=
  ⟨"src_out", fun cA _ _ aB => cA * (1 - aB), fun aA aB => aA * (1 - aB),
    fun A B => mul A (1 - G4float.alpha B), true⟩

/-- `dst_out`. -/
def dstOut : Formula K :=
  ⟨"dst_out", fun _ cB aA _ => cB * (1 - aA), fun aA aB => aB * (1 - aA),
    fun A B => mul B (1 - G4float.alpha A), true⟩

/-- `src_atop`: its SIMD statement then copies `B`'s alpha into `D`. -/
def srcAtop : Formula K :=
  ⟨"src_atop", fun cA cB aA aB => cA * aB + cB * (1 - aA), fun _ aB => aB,
    fun A B => setAlpha (mul A (G4float.alpha B) + mul B (1 - G4float.alpha A))
      (G4float.alpha B), true⟩

/-- `dst_atop`: its SIMD statement then copies `A`'s alpha into `D`. -/
def dstAtop : Formula K :=
  ⟨"dst_atop", fun cA cB aA aB => cB * aA + cA * (1 - aB), fun aA _ => aA,
    fun A B => setAlpha (mul B (G4float.alpha A) + mul A (1 - G4float.alpha B))
      (G4float.alpha A), true⟩

/-- `xor`. -/
def xor : Formula K :=
  ⟨"xor", fun cA cB aA aB => cA * (1 - aB) + cB * (1 - aA), fun aA aB => aA + aB - 2 * aA * aB,
    fun A B => A * B, true⟩

/-- `normal` of `other-blend.rb`, an alias of `src_over`. -/
def normal : Formula K :=
  ⟨"normal", fun cA cB aA _ => cA + cB * (1 - aA), fun aA aB => aA + aB - aA * aB,
    fun A B => A + B * (all 1 - all (A 3)), true⟩

/-- `over` of `other-blend.rb`, an alias of `src_over`. -/
def over : Formula K :=
  ⟨"over", fun cA cB aA _ => cA + cB * (1 - aA), fun aA aB => aA + aB - aA * aB,
    fun A B => A + B * (all 1 - all (A 3)), true⟩

end Formula

open Formula

/-- The table `a` of `svg-12-porter-duff.rb`. -/
def svg12PorterDuff : List (Formula K) :=
  [clear, src, dst, srcOver, dstOver, srcIn, dstIn, srcOut, dstOut, srcAtop, dstAtop, Formula.xor]

/-- The table `a` of `other-blend.rb`. -/
def otherBlend : List (Formula K) := [normal, over]

/-- Every generated operation. -/
def generated : List (Formula K) := svg12PorterDuff ++ otherBlend

theorem mem_generated {row : Formula K} :
    row ∈ generated ↔ row = clear ∨ row = src ∨ row = dst ∨ row = srcOver ∨ row = dstOver ∨
      row = srcIn ∨ row = dstIn ∨ row = srcOut ∨ row = dstOut ∨ row = srcAtop ∨ row = dstAtop ∨
      row = Formula.xor ∨ row = normal ∨ row = over := by
  simp only [generated, svg12PorterDuff, otherBlend, List.cons_append, List.singleton_append,
    List.nil_append, List.mem_cons, List.not_mem_nil, or_false]

/-- The body of `process`'s loop: `aB = in[3]`, `aA = aux[3]`, `out[j] = c_formula` for the
colour channels `j < 3`, then `out[3] = aD`. -/
def scalarPixel (row : Formula K) (input aux : Pixel K) : Pixel K := fun j =>
  if j = 3 then row.alpha (aux 3) (input 3) else row.colour (aux j) (input j) (aux 3) (input 3)

/-- A valid premultiplied pixel: `0 ≤ c ≤ a ≤ 1` for each colour channel `c` and alpha `a`. -/
def Premultiplied (pixel : Pixel K) : Prop :=
  (∀ j : Fin 4, j ≠ 3 → 0 ≤ pixel j ∧ pixel j ≤ pixel 3) ∧ pixel 3 ≤ 1

instance (pixel : Pixel K) : Decidable (Premultiplied pixel) :=
  inferInstanceAs (Decidable (_ ∧ _))

/-- A row keeps one channel of valid premultiplied pixels valid. -/
def Formula.Valid (row : Formula K) : Prop :=
  ∀ cA cB aA aB : K, 0 ≤ cA → cA ≤ aA → aA ≤ 1 → 0 ≤ cB → cB ≤ aB → aB ≤ 1 →
    0 ≤ row.colour cA cB aA aB ∧ row.colour cA cB aA aB ≤ row.alpha aA aB ∧ row.alpha aA aB ≤ 1

theorem scalarPixel_premultiplied {row : Formula K} (valid : row.Valid) {input aux : Pixel K}
    (input_valid : Premultiplied input) (aux_valid : Premultiplied aux) :
    Premultiplied (scalarPixel row input aux) := by
  obtain ⟨input_colour, input_alpha⟩ := input_valid
  obtain ⟨aux_colour, aux_alpha⟩ := aux_valid
  have channel (j : Fin 4) (colour : j ≠ 3) :=
    valid (aux j) (input j) (aux 3) (input 3) (aux_colour j colour).1 (aux_colour j colour).2
      aux_alpha (input_colour j colour).1 (input_colour j colour).2 input_alpha
  refine ⟨fun j colour => ?_, ?_⟩
  · simpa [scalarPixel, colour] using And.intro (channel j colour).1 (channel j colour).2.1
  · simpa [scalarPixel] using (channel 0 (by decide)).2.2

/-- Porter-Duff's form of a row: colour `cA·Fa + cB·Fb` over alpha `aA·Fa + aB·Fb`, where the
fractions are the colour formula's values `Fa = c(1, 0, aA, aB)` and `Fb = c(0, 1, aA, aB)`. -/
def Formula.PorterDuff (row : Formula K) : Prop :=
  ∀ cA cB aA aB : K,
    row.colour cA cB aA aB = cA * row.colour 1 0 aA aB + cB * row.colour 0 1 aA aB ∧
      row.alpha aA aB = aA * row.colour 1 0 aA aB + aB * row.colour 0 1 aA aB

/-- A row in Porter-Duff form is valid when, for alphas in `[0, 1]`, its fractions are
non-negative and its alpha is at most one. -/
theorem Formula.PorterDuff.valid {row : Formula K} (porterDuff : row.PorterDuff)
    (bounded : ∀ aA aB : K, 0 ≤ aA → aA ≤ 1 → 0 ≤ aB → aB ≤ 1 →
      0 ≤ row.colour 1 0 aA aB ∧ 0 ≤ row.colour 0 1 aA aB ∧ row.alpha aA aB ≤ 1) :
    row.Valid := by
  intro cA cB aA aB cA_nonneg cA_le aA_le cB_nonneg cB_le aB_le
  obtain ⟨fa_nonneg, fb_nonneg, alpha_le⟩ :=
    bounded aA aB (cA_nonneg.trans cA_le) aA_le (cB_nonneg.trans cB_le) aB_le
  obtain ⟨colour_eq, alpha_eq⟩ := porterDuff cA cB aA aB
  refine ⟨?_, ?_, alpha_le⟩ <;> rw [colour_eq]
  · exact add_nonneg (mul_nonneg cA_nonneg fa_nonneg) (mul_nonneg cB_nonneg fb_nonneg)
  · rw [alpha_eq]
    exact add_le_add (mul_le_mul_of_nonneg_right cA_le fa_nonneg)
      (mul_le_mul_of_nonneg_right cB_le fb_nonneg)

theorem generated_porterDuff : ∀ row ∈ (generated : List (Formula K)), row.PorterDuff := by
  intro row mem cA cB aA aB
  rcases mem_generated.1 mem with
    rfl | rfl | rfl | rfl | rfl | rfl | rfl | rfl | rfl | rfl | rfl | rfl | rfl | rfl <;>
  constructor <;> dsimp only [clear, src, dst, srcOver, dstOver, srcIn, dstIn, srcOut,
    dstOut, srcAtop, dstAtop, Formula.xor, normal, over] <;> ring

theorem generated_bounded : ∀ row ∈ (generated : List (Formula K)), ∀ aA aB : K,
    0 ≤ aA → aA ≤ 1 → 0 ≤ aB → aB ≤ 1 →
      0 ≤ row.colour 1 0 aA aB ∧ 0 ≤ row.colour 0 1 aA aB ∧ row.alpha aA aB ≤ 1 := by
  intro row mem aA aB aA_nonneg aA_le aB_nonneg aB_le
  have both := mul_nonneg aA_nonneg aB_nonneg
  have neither := mul_nonneg (sub_nonneg.2 aA_le) (sub_nonneg.2 aB_le)
  have only_b := mul_nonneg (sub_nonneg.2 aA_le) aB_nonneg
  have only_a := mul_nonneg aA_nonneg (sub_nonneg.2 aB_le)
  rcases mem_generated.1 mem with
    rfl | rfl | rfl | rfl | rfl | rfl | rfl | rfl | rfl | rfl | rfl | rfl | rfl | rfl <;>
  refine ⟨?_, ?_, ?_⟩ <;> dsimp only [clear, src, dst, srcOver, dstOver, srcIn, dstIn, srcOut,
    dstOut, srcAtop, dstAtop, Formula.xor, normal, over] <;> linarith

/-- Every generated row is valid. -/
theorem generated_valid {row : Formula K} (mem : row ∈ generated) : row.Valid :=
  (generated_porterDuff row mem).valid (generated_bounded row mem)

/-- Every generated row's SIMD statement but `xor`'s computes the scalar loop body, with `*A` the
`aux` pixel and `*B` the `in` pixel. -/
theorem simd_eq_scalarPixel {row : Formula K} (mem : row ∈ generated) (not_xor : row ≠ Formula.xor)
    (A B : Pixel K) : row.simd A B = scalarPixel row B A := by
  funext lane
  rcases mem_generated.1 mem with
    rfl | rfl | rfl | rfl | rfl | rfl | rfl | rfl | rfl | rfl | rfl | rfl | rfl | rfl
  all_goals first
    | exact absurd rfl not_xor
    | fin_cases lane <;>
      simp only [scalarPixel, clear, src, dst, srcOver, dstOver, srcIn, dstIn, srcOut, dstOut,
        srcAtop, dstAtop, normal, over, G4float.all, G4float.mul, G4float.alpha, G4float.setAlpha,
        Fin.isValue, Fin.mk_one, Fin.reduceEq, Fin.reduceFinMk, Fin.zero_eta, Function.update_noteq,
        Function.update_same, Pi.add_apply, Pi.mul_apply, Pi.sub_apply, ne_eq, not_false_eq_true,
        ↓reduceIte] <;> ring

/-- `xor`'s SIMD statement multiplies the two pixels lane by lane: over two opaque white pixels it
gives alpha one where `a_formula` gives `1 + 1 - 2 * 1 * 1 = 0`. -/
theorem xor_simd_ne_scalarPixel :
    (Formula.xor.simd (G4float.all 1) (G4float.all 1) : Pixel K) ≠
      scalarPixel Formula.xor (G4float.all 1) (G4float.all 1) := by
  intro same
  have alpha := congrFun same 3
  norm_num [scalarPixel, Formula.xor, G4float.all] at alpha

/-- `clear` and `dst` are the rows whose SIMD statement does not read `*A`, and they do not
depend on it. -/
theorem simd_of_not_simdReadsAux {row : Formula K} (mem : row ∈ generated)
    (reads : row.simdReadsAux = false) (A A' B : Pixel K) : row.simd A B = row.simd A' B := by
  rcases mem_generated.1 mem with
    rfl | rfl | rfl | rfl | rfl | rfl | rfl | rfl | rfl | rfl | rfl | rfl | rfl | rfl <;>
  first | rfl | cases reads

end Compositor
end Gegl
