import Gegl.Compositor.Formula

/-!
# The scalar and SIMD kernels of a generated compositor

`process` is a `for` loop over `n_pixels` pixels; `process_gegl4float` is a `while (--n_pixels)`
loop, which runs one time fewer. A buffer is a function from pixel index to pixel, a NULL buffer
is `none`, and a kernel returns `none` where it reads through a NULL pointer.
-/

namespace Gegl
namespace Compositor

/-- A buffer of pixels; pixel `i` sits `4 * i` floats past the buffer's pointer. -/
abbrev Buffer (K : Type) := Nat → Pixel K

variable {K : Type} [LinearOrderedField K]

/-- The loop `for (i = 0; i < n_pixels; i++)` of `process`, with `remaining` iterations left and
the pointers `in`, `aux` and `out` advanced by `offset` pixels. -/
def processLoop (row : Formula K) (input aux : Buffer K) : Nat → Nat → Buffer K → Buffer K
  | 0, _, out => out
  | remaining + 1, offset, out =>
    processLoop row input aux remaining (offset + 1)
      (Function.update out offset (scalarPixel row (input offset) (aux offset)))

/-- `process`: it returns at once when `aux` is NULL, and otherwise runs its loop; a NULL `in`
is read by the first iteration. -/
def process (row : Formula K) (input aux : Option (Buffer K)) (out : Buffer K)
    (nPixels : Nat) : Option (Buffer K) :=
  match aux, input with
  | none, _ => some out
  | some _, none => if nPixels = 0 then some out else none
  | some aux, some input => some (processLoop row input aux nPixels 0 out)

omit [LinearOrderedField K] in
theorem processLoop_apply (row : Formula K) (input aux : Buffer K) (remaining offset : Nat)
    (out : Buffer K) (i : Nat) :
    processLoop row input aux remaining offset out i =
      if offset ≤ i ∧ i < offset + remaining then scalarPixel row (input i) (aux i) else out i := by
  induction remaining generalizing offset out with
  | zero => simp only [processLoop, Nat.add_zero]; exact (if_neg (by omega)).symm
  | succ remaining ih =>
    rw [processLoop, ih]
    by_cases here : i = offset
    · subst here; simp
    · rw [Function.update_noteq here]
      exact if_congr (by omega) rfl rfl

/-- The loop `while (--n_pixels)` of `process_gegl4float`, with the pointers advanced by `offset`
pixels and `count` the counter before its decrement. -/
def simdLoop (row : Formula K) (aux input : Buffer K) : Nat → Nat → Buffer K → Buffer K
  | 0, _, out => out
  | count + 1, offset, out =>
    if count = 0 then out
    else simdLoop row aux input count (offset + 1)
      (Function.update out offset (row.simd (aux offset) (input offset)))

/-- `process_gegl4float`: it returns at once when `B` (`in`) is NULL or `n_pixels` is zero. A NULL
`A` (`aux`) is read by the first iteration of a statement that mentions `*A`. -/
def processGegl4float (row : Formula K) (input aux : Option (Buffer K)) (out : Buffer K)
    (nPixels : Nat) : Option (Buffer K) :=
  match input with
  | none => some out
  | some input =>
    if nPixels = 0 then some out
    else
      match aux with
      | some aux => some (simdLoop row aux input nPixels 0 out)
      | none =>
        if row.simdReadsAux = true ∧ 2 ≤ nPixels then none
        else some (simdLoop row 0 input nPixels 0 out)

omit [LinearOrderedField K] in
theorem simdLoop_apply (row : Formula K) (aux input : Buffer K) (count offset : Nat)
    (out : Buffer K) (i : Nat) :
    simdLoop row aux input count offset out i =
      if offset ≤ i ∧ i + 1 < offset + count then row.simd (aux i) (input i) else out i := by
  induction count generalizing offset out with
  | zero => exact (if_neg (by omega)).symm
  | succ count ih =>
    by_cases last : count = 0
    · rw [simdLoop, if_pos last]
      exact (if_neg (by omega)).symm
    · rw [simdLoop, if_neg last, ih]
      by_cases here : i = offset
      · subst here
        simp [show i + 1 < i + (count + 1) by omega]
      · rw [Function.update_noteq here]
        exact if_congr (by omega) rfl rfl

omit [LinearOrderedField K] in
/-- Where the SIMD statement computes the scalar loop body, the SIMD loop is the scalar loop
with one iteration fewer. -/
theorem simdLoop_eq_processLoop {row : Formula K}
    (agrees : ∀ A B, row.simd A B = scalarPixel row B A) (aux input : Buffer K)
    (count offset : Nat) (out : Buffer K) :
    simdLoop row aux input count offset out = processLoop row input aux (count - 1) offset out := by
  funext i
  rw [simdLoop_apply, processLoop_apply, agrees]
  exact if_congr (by omega) rfl rfl

/-- With both buffers present, the SIMD kernel of every generated row but `xor` computes the
scalar kernel over `n_pixels - 1` pixels. -/
theorem processGegl4float_eq_process {row : Formula K} (mem : row ∈ generated)
    (not_xor : row ≠ Formula.xor) (input aux out : Buffer K) (nPixels : Nat) :
    processGegl4float row (some input) (some aux) out nPixels =
      process row (some input) (some aux) out (nPixels - 1) := by
  simp only [processGegl4float, process, simdLoop_eq_processLoop (simd_eq_scalarPixel mem not_xor)]
  split
  · subst_vars; rfl
  · rfl

/-- With both buffers present and `n_pixels ≥ 1`, the SIMD kernel leaves the last pixel as it
was, where the scalar kernel writes the row's formulas. -/
theorem processGegl4float_skips_last_pixel (row : Formula K) (input aux out : Buffer K)
    (nPixels : Nat) (nonempty : 0 < nPixels) :
    (processGegl4float row (some input) (some aux) out nPixels).map (· (nPixels - 1)) =
        some (out (nPixels - 1)) ∧
      (process row (some input) (some aux) out nPixels).map (· (nPixels - 1)) =
        some (scalarPixel row (input (nPixels - 1)) (aux (nPixels - 1))) := by
  simp only [processGegl4float, process, Nat.pos_iff_ne_zero.1 nonempty, if_false,
    Option.map_some', simdLoop_apply, processLoop_apply]
  constructor
  · exact congrArg some (if_neg (by omega))
  · exact congrArg some (if_pos (by omega))

/-- The SIMD kernel computes the scalar one over one pixel fewer for every row but `xor`, whose
statement is not its formulas; a NULL `aux` changes nothing for a row that does not read `*A`. -/
theorem processGegl4float_against_process :
    (∀ row ∈ (generated : List (Formula K)), row ≠ Formula.xor → ∀ (input aux out : Buffer K) nPixels,
      processGegl4float row (some input) (some aux) out nPixels =
        process row (some input) (some aux) out (nPixels - 1)) ∧
    (∀ (row : Formula K) (input aux out : Buffer K) nPixels, 0 < nPixels →
      (processGegl4float row (some input) (some aux) out nPixels).map (· (nPixels - 1)) =
          some (out (nPixels - 1)) ∧
        (process row (some input) (some aux) out nPixels).map (· (nPixels - 1)) =
          some (scalarPixel row (input (nPixels - 1)) (aux (nPixels - 1)))) ∧
    (Formula.xor.simd (G4float.all 1) (G4float.all 1) : Pixel K) ≠
      scalarPixel Formula.xor (G4float.all 1) (G4float.all 1) ∧
    (∀ row ∈ (generated : List (Formula K)), row.simdReadsAux = false →
      ∀ (input aux out : Buffer K) nPixels,
        processGegl4float row (some input) none out nPixels =
          processGegl4float row (some input) (some aux) out nPixels) := by
  refine ⟨fun _ => processGegl4float_eq_process, processGegl4float_skips_last_pixel,
    xor_simd_ne_scalarPixel,
    fun row mem reads input aux out nPixels => ?_⟩
  have any_aux : simdLoop row 0 input nPixels 0 out = simdLoop row aux input nPixels 0 out := by
    funext i
    rw [simdLoop_apply, simdLoop_apply,
      simd_of_not_simdReadsAux mem reads ((0 : Buffer K) i) (aux i)]
  simp only [processGegl4float, reads, any_aux]
  rfl

theorem Formula.src_ne_xor : (Formula.src : Formula K) ≠ Formula.xor :=
  fun same => by simpa [Formula.src, Formula.xor] using congrArg Formula.name same

theorem processGegl4float_against_process_src :
    (Formula.src : Formula ℚ) ∈ generated ∧ (Formula.src : Formula ℚ) ≠ Formula.xor ∧
      processGegl4float Formula.src (some 1) (some 1) (0 : Buffer ℚ) 3 =
        process Formula.src (some 1) (some 1) 0 (3 - 1) :=
  ⟨by simp [mem_generated], Formula.src_ne_xor,
    processGegl4float_against_process.1 _ (by simp [mem_generated]) Formula.src_ne_xor 1 1 0 3⟩

/-- One opaque white pixel composed with `src`: the scalar kernel writes it, the SIMD kernel
writes nothing. -/
theorem src_single_pixel_divergence :
    process Formula.src (some 1) (some 1) (0 : Buffer ℚ) 1 = some (Function.update (0 : Buffer ℚ) 0 1) ∧
      processGegl4float Formula.src (some 1) (some 1) (0 : Buffer ℚ) 1 = some 0 := by
  refine ⟨congrArg (some ∘ Function.update (0 : Buffer ℚ) 0) (funext fun lane => ?_), ?_⟩
  · simp [scalarPixel, Formula.src]
  · rw [processGegl4float_eq_process (by simp [mem_generated]) Formula.src_ne_xor]
    rfl

/-- The scalar kernel of every generated row, given valid premultiplied pixels in both buffers,
writes a valid premultiplied pixel at every index below `n_pixels` and nothing else. -/
theorem process_premultiplied {row : Formula K} (mem : row ∈ generated) (input aux out : Buffer K)
    (nPixels : Nat) (input_valid : ∀ i < nPixels, Premultiplied (input i))
    (aux_valid : ∀ i < nPixels, Premultiplied (aux i)) :
    ∃ out', process row (some input) (some aux) out nPixels = some out' ∧
      (∀ i < nPixels, Premultiplied (out' i)) ∧ ∀ i, nPixels ≤ i → out' i = out i := by
  refine ⟨_, rfl, fun i below => ?_, fun i above => ?_⟩ <;> rw [processLoop_apply]
  · rw [if_pos (by omega)]
    exact scalarPixel_premultiplied (generated_valid mem) (input_valid i below) (aux_valid i below)
  · exact if_neg (by omega)

theorem process_premultiplied_srcOver :
    (∀ i < 2, Premultiplied ((fun _ => ![1 / 4, 0, 1 / 2, 1 / 2] : Buffer ℚ) i)) ∧
      (∀ i < 2, Premultiplied ((fun _ => ![0, 1 / 3, 1 / 3, 2 / 3] : Buffer ℚ) i)) ∧
      ∃ out', process Formula.srcOver (some fun _ => ![1 / 4, 0, 1 / 2, 1 / 2])
          (some fun _ => ![0, 1 / 3, 1 / 3, 2 / 3]) (0 : Buffer ℚ) 2 = some out' ∧
        (∀ i < 2, Premultiplied (out' i)) ∧ ∀ i, 2 ≤ i → out' i = (0 : Buffer ℚ) i :=
  have input_valid : ∀ i < 2, Premultiplied ((fun _ => ![1 / 4, 0, 1 / 2, 1 / 2] : Buffer ℚ) i) :=
    fun _ _ => by norm_num [Premultiplied, Fin.forall_fin_succ]
  have aux_valid : ∀ i < 2, Premultiplied ((fun _ => ![0, 1 / 3, 1 / 3, 2 / 3] : Buffer ℚ) i) :=
    fun _ _ => by norm_num [Premultiplied, Fin.forall_fin_succ]
  ⟨input_valid, aux_valid,
    process_premultiplied (by simp [mem_generated]) _ _ 0 2 input_valid aux_valid⟩

end Compositor
end Gegl
