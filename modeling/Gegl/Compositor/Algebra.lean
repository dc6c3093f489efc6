import Gegl.Compositor.Process

/-!
# The algebra of the generated compositors

Every `dst_*` row of `svg-12-porter-duff.rb` is its `src_*` row with the operands exchanged, so
over present buffers each `dst_*` operation computes its `src_*` one with `in` and `aux` swapped.
`src_over`, `normal` and `over` compose buffers associatively, with the transparent buffer as unit.
-/

namespace Gegl
namespace Compositor

open Formula

variable {K : Type} [LinearOrderedField K]

/-- `row'` is `row` with its operands exchanged: `cA` with `cB`, `aA` with `aB`, and `*A` with
`*B`. -/
structure Formula.Swapped (row row' : Formula K) : Prop where
  colour : ∀ cA cB aA aB, row'.colour cA cB aA aB = row.colour cB cA aB aA
  alpha : ∀ aA aB, row'.alpha aA aB = row.alpha aB aA
  simd : ∀ A B, row'.simd A B = row.simd B A

namespace Formula.Swapped

variable {row row' : Formula K} (swapped : row.Swapped row')
include swapped

omit [LinearOrderedField K] in
theorem scalarPixel_eq (input aux : Pixel K) :
    scalarPixel row' input aux = scalarPixel row aux input := by
  funext j
  simp only [scalarPixel, swapped.colour, swapped.alpha]

omit [LinearOrderedField K] in
theorem processLoop_eq (input aux : Buffer K) (remaining offset : Nat) (out : Buffer K) :
    processLoop row' input aux remaining offset out =
      processLoop row aux input remaining offset out := by
  funext i
  rw [processLoop_apply, processLoop_apply, swapped.scalarPixel_eq]

omit [LinearOrderedField K] in
theorem simdLoop_eq (aux input : Buffer K) (count offset : Nat) (out : Buffer K) :
    simdLoop row' aux input count offset out = simdLoop row input aux count offset out := by
  funext i
  rw [simdLoop_apply, simdLoop_apply, swapped.simd]

end Formula.Swapped

/-- The rows of `svg-12-porter-duff.rb` paired by their names: each `src_*` row with its `dst_*`
row, and `clear` and `xor` with themselves. -/
def porterDuffPairs : List (Formula K × Formula K) :=
  [(clear, clear), (src, dst), (srcOver, dstOver), (srcIn, dstIn), (srcOut, dstOut),
    (srcAtop, dstAtop), (Formula.xor, Formula.xor)]

/-- Each pair is swapped: `dst_in`'s `cB * aA`, which the table marks `XXX: typo?`, is `src_in`'s
formula with the operands exchanged, as the other `dst_*` rows are. -/
theorem swapped_of_mem_porterDuffPairs {pair : Formula K × Formula K}
    (mem : pair ∈ porterDuffPairs) : pair.1.Swapped pair.2 := by
  simp only [porterDuffPairs, List.mem_cons, List.not_mem_nil, or_false] at mem
  rcases mem with rfl | rfl | rfl | rfl | rfl | rfl | rfl <;>
  refine ⟨fun cA cB aA aB => ?_, fun aA aB => ?_, fun A B => ?_⟩ <;>
  first | rfl | (dsimp only [srcOver, dstOver, srcIn, dstIn, srcOut, dstOut, Formula.xor]; ring)

/-- Over present `in` and `aux` buffers, every `dst_*` operation computes its `src_*` operation
with the two exchanged, and `clear` and `xor` ignore their order, in both kernels. -/
theorem process_swap_operands :
    ∀ pair ∈ (porterDuffPairs : List (Formula K × Formula K)),
      ∀ (input aux out : Buffer K) (nPixels : Nat),
        process pair.2 (some input) (some aux) out nPixels =
            process pair.1 (some aux) (some input) out nPixels ∧
          processGegl4float pair.2 (some input) (some aux) out nPixels =
            processGegl4float pair.1 (some aux) (some input) out nPixels := by
  intro pair mem input aux out nPixels
  have swapped := swapped_of_mem_porterDuffPairs mem
  simp only [process, processGegl4float, swapped.processLoop_eq, swapped.simdLoop_eq, and_self]

theorem process_swap_operands_in :
    ((srcIn, dstIn) ∈ (porterDuffPairs : List (Formula ℚ × Formula ℚ))) ∧
      process dstIn (some 1) (some 0) (0 : Buffer ℚ) 2 = process srcIn (some 0) (some 1) 0 2 ∧
        processGegl4float dstIn (some 1) (some 0) (0 : Buffer ℚ) 2 =
          processGegl4float srcIn (some 0) (some 1) 0 2 :=
  have mem : ((srcIn, dstIn) ∈ (porterDuffPairs : List (Formula ℚ × Formula ℚ))) :=
    .tail _ (.tail _ (.tail _ (.head _)))
  ⟨mem, process_swap_operands _ mem 1 0 0 2⟩

/-- `src_over` and its two aliases `normal` and `over`. -/
def overRows : List (Formula K) := [srcOver, normal, over]

/-- The scalar loop body of the three rows writes `aux` over `in`. -/
theorem scalarPixel_of_mem_overRows {row : Formula K} (mem : row ∈ overRows) (input aux : Pixel K) :
    scalarPixel row input aux = fun j =>
      if j = 3 then aux 3 + input 3 - aux 3 * input 3 else aux j + input j * (1 - aux 3) := by
  simp only [overRows, List.mem_cons, List.not_mem_nil, or_false] at mem
  rcases mem with rfl | rfl | rfl <;> rfl

section Over

variable {row : Formula K} (mem : row ∈ overRows)
include mem

/-- One pixel of `a` over `b` over `c`, grouped either way. -/
theorem scalarPixel_over_assoc (a b c : Pixel K) :
    scalarPixel row c (scalarPixel row b a) = scalarPixel row (scalarPixel row c b) a := by
  simp only [scalarPixel_of_mem_overRows mem]
  funext j
  by_cases alpha : j = 3
  · subst alpha
    simp only [eq_self_iff_true, if_true]
    ring
  · simp only [alpha, eq_self_iff_true, if_true, if_false]
    ring

theorem scalarPixel_transparent_aux (a : Pixel K) : scalarPixel row a 0 = a := by
  simp only [scalarPixel_of_mem_overRows mem, Pi.zero_apply]
  funext j
  split_ifs with alpha
  · rw [alpha]; ring
  · ring

theorem scalarPixel_transparent_input (a : Pixel K) : scalarPixel row 0 a = a := by
  simp only [scalarPixel_of_mem_overRows mem, Pi.zero_apply]
  funext j
  split_ifs with alpha
  · rw [alpha]; ring
  · ring

end Over

/-- `src_over`, `normal` and `over` compose buffers associatively over the first `n_pixels`
pixels, with the transparent buffer as identity on either side. -/
theorem process_over_monoid :
    ∀ row ∈ (overRows : List (Formula K)), ∀ (a b c out : Buffer K) (nPixels : Nat),
      ((process row (some b) (some a) out nPixels).bind fun ab =>
          process row (some c) (some ab) out nPixels) =
        ((process row (some c) (some b) out nPixels).bind fun bc =>
          process row (some bc) (some a) out nPixels) ∧
      process row (some a) (some 0) out nPixels =
        some (fun i => if i < nPixels then a i else out i) ∧
      process row (some 0) (some a) out nPixels =
        some (fun i => if i < nPixels then a i else out i) := by
  intro row mem a b c out nPixels
  refine ⟨?_, ?_, ?_⟩ <;> simp only [process, Option.bind] <;> congr 1 <;> funext i <;>
  simp only [processLoop_apply, zero_le, true_and, zero_add, Pi.zero_apply] <;>
  split_ifs <;>
  simp only [scalarPixel_over_assoc mem, scalarPixel_transparent_aux mem,
    scalarPixel_transparent_input mem]

theorem process_over_monoid_srcOver :
    srcOver ∈ (overRows : List (Formula ℚ)) ∧
      ((process srcOver (some 1) (some 1) (0 : Buffer ℚ) 3).bind fun ab =>
          process srcOver (some 0) (some ab) 0 3) =
        ((process srcOver (some 0) (some 1) (0 : Buffer ℚ) 3).bind fun bc =>
          process srcOver (some bc) (some 1) 0 3) ∧
      process srcOver (some 1) (some 0) (0 : Buffer ℚ) 3 =
        some (fun i => if i < 3 then (1 : Buffer ℚ) i else 0) ∧
      process srcOver (some 0) (some 1) (0 : Buffer ℚ) 3 =
        some (fun i => if i < 3 then (1 : Buffer ℚ) i else 0) :=
  have mem : srcOver ∈ (overRows : List (Formula ℚ)) := .head _
  ⟨mem, process_over_monoid srcOver mem 1 1 0 0 3⟩

end Compositor
end Gegl
