import Mathlib

/-!
# Nohalo subdivision

`nohalo_subdivision` reads 21 values of one channel around the anchor `tre_thr` and returns the
16 values LBB reads, twelve of them new values at half-pixel positions built from minmod slopes.
Arithmetic is exact, over any linear ordered field.
-/

namespace Gegl
namespace Lohalo

open Set

variable {K : Type} [LinearOrderedField K]

/-- `LOHALO_MINMOD (a, b, a_times_a, a_times_b)`, whose callers pass the square of `a` and the
product of `a` and `b`. -/
def minmod (a b aTimesA aTimesB : K) : K :=
  if aTimesB ≥ 0 then (if aTimesA ≤ aTimesB then a else b) else 0

/-- The minmod of two differences lies between zero and the first. -/
theorem minmod_mem_uIcc_left (a b : K) {ab : K} (product : ab = a * b) :
    minmod a b (a * a) ab ∈ uIcc 0 a := by
  subst product
  unfold minmod
  split_ifs with same smaller
  · exact right_mem_uIcc
  · rcases lt_trichotomy a 0 with neg | zero | pos
    · exact mem_uIcc.2 (Or.inr ⟨(mul_le_mul_left_of_neg neg).1 (le_of_not_le smaller),
        nonpos_of_mul_nonneg_right same neg⟩)
    · subst zero; simp at smaller
    · exact mem_uIcc.2 (Or.inl ⟨nonneg_of_mul_nonneg_right same pos,
        (mul_le_mul_left pos).1 (le_of_not_le smaller)⟩)
  · exact left_mem_uIcc

/-- The minmod of two differences lies between zero and the second. -/
theorem minmod_mem_uIcc_right (a b : K) {ab : K} (product : ab = a * b) :
    minmod a b (a * a) ab ∈ uIcc 0 b := by
  subst product
  unfold minmod
  split_ifs with same smaller
  · rcases lt_trichotomy a 0 with neg | zero | pos
    · exact mem_uIcc.2 (Or.inr ⟨(mul_le_mul_left_of_neg neg).1 smaller, neg.le⟩)
    · subst zero; exact left_mem_uIcc
    · exact mem_uIcc.2 (Or.inl ⟨pos.le, (mul_le_mul_left pos).1 smaller⟩)
  · exact right_mem_uIcc
  · exact left_mem_uIcc

/-- `minmod` is symmetric, as the slopes of a mirrored stencil need. -/
theorem minmod_comm (a b : K) : minmod a b (a * a) (a * b) = minmod b a (b * b) (b * a) := by
  unfold minmod
  rw [mul_comm b a]
  split_ifs with same first second second <;> try rfl
  · have square : (a - b) * (a - b) ≤ 0 := calc
      (a - b) * (a - b) = (a * a - a * b) + (b * b - a * b) := by ring
      _ ≤ 0 := by linarith
    exact sub_eq_zero.1 (mul_self_eq_zero.1 (le_antisymm square (mul_self_nonneg _)))
  · -- both strict: their product is `-(a * b) * (a - b) ^ 2`, which `0 ≤ a * b` makes nonpositive
    have : 0 < (a * a - a * b) * (b * b - a * b) :=
      mul_pos (sub_pos.2 (lt_of_not_le first)) (sub_pos.2 (lt_of_not_le second))
    have : (a * a - a * b) * (b * b - a * b) = -(a * b * ((a - b) * (a - b))) := by ring
    have := mul_nonneg same (mul_self_nonneg (a - b))
    linarith

/-- The `LOHALO_MINMOD` left in a comment above the one in use, with its second test the other way
round. -/
def minmodDisabled (a b aTimesA aTimesB : K) : K :=
  if aTimesB ≥ 0 then (if aTimesB < aTimesA then b else a) else 0

/-- The slope that the comment of `nohalo_subdivision` asks for: of two consecutive differences
with the same sign, the one smaller in absolute value, and `0` if their signs differ. -/
def minmodSpec (a b : K) : K :=
  if 0 < a * b then (if |a| ≤ |b| then a else b) else 0

/-- Both versions of `LOHALO_MINMOD`, the one in use and the one left in a comment, compute the
slope the comment of `nohalo_subdivision` describes, for all differences `a` and `b`. -/
theorem minmod_eq_minmodSpec (a b : K) :
    minmod a b (a * a) (a * b) = minmodSpec a b ∧
      minmodDisabled a b (a * a) (a * b) = minmodSpec a b := by
  unfold minmod minmodDisabled minmodSpec
  rcases lt_trichotomy (a * b) 0 with opposite | zero | same
  · simp only [ge_iff_le, not_le.2 opposite, not_lt.2 opposite.le, if_false, and_self]
  · -- one of the two differences is zero, and so is every branch
    rcases mul_eq_zero.1 zero with rfl | rfl
    · simp
    · simpa using fun h => mul_self_eq_zero.1 (le_antisymm h (mul_self_nonneg a))
  · have magnitude : a * a ≤ a * b ↔ |a| ≤ |b| := by
      rw [← abs_mul_abs_self a, ← abs_of_pos same, abs_mul]
      exact mul_le_mul_left (abs_pos.2 (left_ne_zero_of_mul same.ne'))
    simp only [ge_iff_le, same.le, same, if_true, ← not_le, ite_not, magnitude, and_self]

/-- The 21 input values of `nohalo_subdivision`, named as the source names them: rows `uno` to
`cin`, columns `one` to `fiv`, the anchor `tre_thr` in the middle. -/
@[ext]
structure Stencil (K : Type) where
  unoTwo : K
  unoThr : K
  unoFou : K
  dosOne : K
  dosTwo : K
  dosThr : K
  dosFou : K
  dosFiv : K
  treOne : K
  treTwo : K
  treThr : K
  treFou : K
  treFiv : K
  quaOne : K
  quaTwo : K
  quaThr : K
  quaFou : K
  quaFiv : K
  cinTwo : K
  cinThr : K
  cinFou : K

/-- The 16 values LBB reads, a 4x4 stencil; `dos_two` to `tre_thr` are the corners of the patch. -/
@[ext]
structure Patch (K : Type) where
  unoOne : K
  unoTwo : K
  unoThr : K
  unoFou : K
  dosOne : K
  dosTwo : K
  dosThr : K
  dosFou : K
  treOne : K
  treTwo : K
  treThr : K
  treFou : K
  quaOne : K
  quaTwo : K
  quaThr : K
  quaFou : K

/-- The input values. -/
def Stencil.values (s : Stencil K) : List K :=
  [s.unoTwo, s.unoThr, s.unoFou, s.dosOne, s.dosTwo, s.dosThr, s.dosFou, s.dosFiv, s.treOne,
    s.treTwo, s.treThr, s.treFou, s.treFiv, s.quaOne, s.quaTwo, s.quaThr, s.quaFou, s.quaFiv,
    s.cinTwo, s.cinThr, s.cinFou]

/-- The stencil values. -/
def Patch.values (p : Patch K) : List K :=
  [p.unoOne, p.unoTwo, p.unoThr, p.unoFou, p.dosOne, p.dosTwo, p.dosThr, p.dosFou, p.treOne,
    p.treTwo, p.treThr, p.treFou, p.quaOne, p.quaTwo, p.quaThr, p.quaFou]

/-! ## The minmod slopes

Each slope is the minmod of two consecutive differences; the products are the source's
"recyclable" squares and products. -/

namespace Stencil

variable (s : Stencil K)

/-- `dos_thr_y`. -/
def dosThrY : K :=
  let dUnodosThr := s.dosThr - s.unoThr
  let dDostreThr := s.treThr - s.dosThr
  minmod dDostreThr dUnodosThr (dDostreThr * dDostreThr) (dUnodosThr * dDostreThr)

/-- `tre_thr_y`. -/
def treThrY : K :=
  let dDostreThr := s.treThr - s.dosThr
  let dTrequaThr := s.quaThr - s.treThr
  minmod dDostreThr dTrequaThr (dDostreThr * dDostreThr) (dTrequaThr * dDostreThr)

/-- `qua_thr_y`. -/
def quaThrY : K :=
  let dTrequaThr := s.quaThr - s.treThr
  let dQuacinThr := s.cinThr - s.quaThr
  minmod dQuacinThr dTrequaThr (dQuacinThr * dQuacinThr) (dTrequaThr * dQuacinThr)

/-- `tre_fou_y`. -/
def treFouY : K :=
  let dDostreFou := s.treFou - s.dosFou
  let dTrequaFou := s.quaFou - s.treFou
  minmod dDostreFou dTrequaFou (dDostreFou * dDostreFou) (dTrequaFou * dDostreFou)

/-- `qua_fou_y`. -/
def quaFouY : K :=
  let dTrequaFou := s.quaFou - s.treFou
  let dQuacinFou := s.cinFou - s.quaFou
  minmod dQuacinFou dTrequaFou (dQuacinFou * dQuacinFou) (dTrequaFou * dQuacinFou)

/-- `dos_fou_y`. -/
def dosFouY : K :=
  let dUnodosFou := s.dosFou - s.unoFou
  let dDostreFou := s.treFou - s.dosFou
  minmod dDostreFou dUnodosFou (dDostreFou * dDostreFou) (dUnodosFou * dDostreFou)

/-- `tre_two_x`. -/
def treTwoX : K :=
  let dTreOnetwo := s.treTwo - s.treOne
  let dTreTwothr := s.treThr - s.treTwo
  minmod dTreTwothr dTreOnetwo (dTreTwothr * dTreTwothr) (dTreOnetwo * dTreTwothr)

/-- `tre_thr_x`. -/
def treThrX : K :=
  let dTreTwothr := s.treThr - s.treTwo
  let dTreThrfou := s.treFou - s.treThr
  minmod dTreTwothr dTreThrfou (dTreTwothr * dTreTwothr) (dTreThrfou * dTreTwothr)

/-- `tre_fou_x`. -/
def treFouX : K :=
  let dTreThrfou := s.treFou - s.treThr
  let dTreFoufiv := s.treFiv - s.treFou
  minmod dTreFoufiv dTreThrfou (dTreFoufiv * dTreFoufiv) (dTreThrfou * dTreFoufiv)

/-- `qua_thr_x`. -/
def quaThrX : K :=
  let dQuaTwothr := s.quaThr - s.quaTwo
  let dQuaThrfou := s.quaFou - s.quaThr
  minmod dQuaTwothr dQuaThrfou (dQuaTwothr * dQuaTwothr) (dQuaThrfou * dQuaTwothr)

/-- `qua_fou_x`. -/
def quaFouX : K :=
  let dQuaThrfou := s.quaFou - s.quaThr
  let dQuaFoufiv := s.quaFiv - s.quaFou
  minmod dQuaFoufiv dQuaThrfou (dQuaFoufiv * dQuaFoufiv) (dQuaThrfou * dQuaFoufiv)

/-- `qua_two_x`. -/
def quaTwoX : K :=
  let dQuaOnetwo := s.quaTwo - s.quaOne
  let dQuaTwothr := s.quaThr - s.quaTwo
  minmod dQuaTwothr dQuaOnetwo (dQuaTwothr * dQuaTwothr) (dQuaOnetwo * dQuaTwothr)

/-- `dos_thr_x`. -/
def dosThrX : K :=
  let dDosTwothr := s.dosThr - s.dosTwo
  let dDosThrfou := s.dosFou - s.dosThr
  minmod dDosTwothr dDosThrfou (dDosTwothr * dDosTwothr) (dDosTwothr * dDosThrfou)

/-- `dos_fou_x`. -/
def dosFouX : K :=
  let dDosThrfou := s.dosFou - s.dosThr
  let dDosFoufiv := s.dosFiv - s.dosFou
  minmod dDosFoufiv dDosThrfou (dDosFoufiv * dDosFoufiv) (dDosThrfou * dDosFoufiv)

/-- `tre_two_y`. -/
def treTwoY : K :=
  let dDostreTwo := s.treTwo - s.dosTwo
  let dTrequaTwo := s.quaTwo - s.treTwo
  minmod dDostreTwo dTrequaTwo (dDostreTwo * dDostreTwo) (dDostreTwo * dTrequaTwo)

/-- `qua_two_y`. -/
def quaTwoY : K :=
  let dTrequaTwo := s.quaTwo - s.treTwo
  let dQuacinTwo := s.cinTwo - s.quaTwo
  minmod dQuacinTwo dTrequaTwo (dQuacinTwo * dQuacinTwo) (dQuacinTwo * dTrequaTwo)

/-- `dos_two_x`. -/
def dosTwoX : K :=
  let dDosOnetwo := s.dosTwo - s.dosOne
  let dDosTwothr := s.dosThr - s.dosTwo
  minmod dDosTwothr dDosOnetwo (dDosTwothr * dDosTwothr) (dDosOnetwo * dDosTwothr)

/-- `dos_two_y`. -/
def dosTwoY : K :=
  let dUnodosTwo := s.dosTwo - s.unoTwo
  let dDostreTwo := s.treTwo - s.dosTwo
  minmod dDostreTwo dUnodosTwo (dDostreTwo * dDostreTwo) (dUnodosTwo * dDostreTwo)

end Stencil

/-- `nohalo_subdivision`: the twelve new values and the four input values LBB reads. -/
def nohaloSubdivision (s : Stencil K) : Patch K :=
  let newvalUnoTwo := 1 / 2 * (s.dosThr + s.treThr) + 1 / 4 * (s.dosThrY - s.treThrY)
  let newvalTreTwo := 1 / 2 * (s.treThr + s.quaThr) + 1 / 4 * (s.treThrY - s.quaThrY)
  let newvalTreFou := 1 / 2 * (s.treFou + s.quaFou) + 1 / 4 * (s.treFouY - s.quaFouY)
  let newvalUnoFou := 1 / 2 * (s.dosFou + s.treFou) + 1 / 4 * (s.dosFouY - s.treFouY)
  let newvalDosOne := 1 / 2 * (s.treTwo + s.treThr) + 1 / 4 * (s.treTwoX - s.treThrX)
  let treThrXMinusTreFouX := s.treThrX - s.treFouX
  let newvalDosThr := 1 / 2 * (s.treThr + s.treFou) + 1 / 4 * treThrXMinusTreFouX
  let quaThrXMinusQuaFouX := s.quaThrX - s.quaFouX
  let newvalQuaThr := 1 / 2 * (s.quaThr + s.quaFou) + 1 / 4 * quaThrXMinusQuaFouX
  let newvalQuaOne := 1 / 2 * (s.quaTwo + s.quaThr) + 1 / 4 * (s.quaTwoX - s.quaThrX)
  let newvalTreThr :=
    1 / 8 * (treThrXMinusTreFouX + quaThrXMinusQuaFouX) + 1 / 2 * (newvalTreTwo + newvalTreFou)
  let newvalUnoThr :=
    1 / 4 * (s.dosFou - s.treThr) + 1 / 8 * (s.dosFouY - s.treFouY + s.dosThrX - s.dosFouX) +
      1 / 2 * (newvalUnoTwo + newvalDosThr)
  let newvalTreOne :=
    1 / 4 * (s.quaTwo - s.treThr) + 1 / 8 * (s.quaTwoX - s.quaThrX + s.treTwoY - s.quaTwoY) +
      1 / 2 * (newvalDosOne + newvalTreTwo)
  let newvalUnoOne :=
    1 / 4 * (s.dosTwo + s.dosThr + s.treTwo + s.treThr) +
      1 / 8 * (s.dosTwoX - s.dosThrX + s.treTwoX - s.treThrX +
        s.dosTwoY + s.dosThrY - s.treTwoY - s.treThrY)
  { unoOne := newvalUnoOne, unoTwo := newvalUnoTwo, unoThr := newvalUnoThr,
    unoFou := newvalUnoFou, dosOne := newvalDosOne, dosTwo := s.treThr, dosThr := newvalDosThr,
    dosFou := s.treFou, treOne := newvalTreOne, treTwo := newvalTreTwo, treThr := newvalTreThr,
    treFou := newvalTreFou, quaOne := newvalQuaOne, quaTwo := s.quaThr, quaThr := newvalQuaThr,
    quaFou := s.quaFou }

/-- A step from `p` by a slope between zero and `q - p` stays between `p` and `q`. -/
theorem add_mem_uIcc {p q x : K} (slope : x ∈ uIcc 0 (q - p)) : p + x ∈ uIcc p q := by
  simpa only [image_const_add_uIcc, add_zero, add_sub_cancel] using mem_image_of_mem (p + ·) slope

/-- Half of a slope lies between zero and half of the difference, inside `uIcc 0 x`. -/
theorem half_mem_uIcc {d x : K} (slope : x ∈ uIcc 0 d) : 1 / 2 * x ∈ uIcc 0 d := by
  refine uIcc_subset_uIcc left_mem_uIcc slope ?_
  simpa only [image_mul_const_uIcc, zero_mul, one_mul] using
    mem_image_of_mem (· * x) (mem_uIcc_of_le (by norm_num) (by norm_num) : (1 / 2 : K) ∈ uIcc 0 1)

theorem neg_mem_uIcc_sub {p q x : K} (slope : x ∈ uIcc 0 (q - p)) : -x ∈ uIcc 0 (p - q) := by
  simpa only [image_neg_uIcc, neg_zero, neg_sub] using mem_image_of_mem Neg.neg slope

theorem midpoint_mem_uIcc {p q a b : K} (ha : a ∈ uIcc p q) (hb : b ∈ uIcc p q) :
    (a + b) / 2 ∈ uIcc p q :=
  ⟨by linarith only [ha.1, hb.1], by linarith only [ha.2, hb.2]⟩

theorem mean_mem_Icc {L H a b c d : K} (ha : a ∈ Icc L H) (hb : b ∈ Icc L H) (hc : c ∈ Icc L H)
    (hd : d ∈ Icc L H) : (a + b + c + d) / 4 ∈ Icc L H :=
  ⟨by linarith only [ha.1, hb.1, hc.1, hd.1], by linarith only [ha.2, hb.2, hc.2, hd.2]⟩

/-- An edge value, the mean of two pixels moved by a quarter of the difference of two slopes that
lie between zero and the pixels' difference, stays between the two pixels. -/
theorem edge_mem_uIcc {p q x y : K} (first : x ∈ uIcc 0 (q - p)) (second : y ∈ uIcc 0 (q - p)) :
    1 / 2 * (p + q) + 1 / 4 * (x - y) ∈ uIcc p q := by
  have near := add_mem_uIcc (half_mem_uIcc first)
  have far := add_mem_uIcc (neg_mem_uIcc_sub (half_mem_uIcc second))
  rw [uIcc_comm q p] at far
  convert midpoint_mem_uIcc near far using 1
  ring

/-- A corner's share of a centre value: the pixel moved by half of a slope toward each of its two
neighbours in the cell. It stays in any interval holding the three pixels. -/
theorem corner_mem_Icc {L H p q r x y : K} (hp : p ∈ Icc L H) (hq : q ∈ Icc L H)
    (hr : r ∈ Icc L H) (toward_q : x ∈ uIcc 0 (q - p)) (toward_r : y ∈ uIcc 0 (r - p)) :
    p + 1 / 2 * x + 1 / 2 * y ∈ Icc L H := by
  have along_q := uIcc_subset_Icc hp hq (add_mem_uIcc toward_q)
  have along_r := uIcc_subset_Icc hp hr (add_mem_uIcc toward_r)
  exact ⟨by linarith [along_q.1, along_r.1], by linarith [along_q.2, along_r.2]⟩

namespace Stencil

variable (s : Stencil K)

theorem dosThrY_mem : s.dosThrY ∈ uIcc 0 (s.treThr - s.dosThr) :=
  minmod_mem_uIcc_left _ _ (mul_comm _ _)

theorem treThrY_mem_up : s.treThrY ∈ uIcc 0 (s.treThr - s.dosThr) :=
  minmod_mem_uIcc_left _ _ (mul_comm _ _)

theorem treThrY_mem_down : s.treThrY ∈ uIcc 0 (s.quaThr - s.treThr) :=
  minmod_mem_uIcc_right _ _ (mul_comm _ _)

theorem quaThrY_mem : s.quaThrY ∈ uIcc 0 (s.quaThr - s.treThr) :=
  minmod_mem_uIcc_right _ _ (mul_comm _ _)

theorem treFouY_mem_up : s.treFouY ∈ uIcc 0 (s.treFou - s.dosFou) :=
  minmod_mem_uIcc_left _ _ (mul_comm _ _)

theorem treFouY_mem_down : s.treFouY ∈ uIcc 0 (s.quaFou - s.treFou) :=
  minmod_mem_uIcc_right _ _ (mul_comm _ _)

theorem quaFouY_mem : s.quaFouY ∈ uIcc 0 (s.quaFou - s.treFou) :=
  minmod_mem_uIcc_right _ _ (mul_comm _ _)

theorem dosFouY_mem : s.dosFouY ∈ uIcc 0 (s.treFou - s.dosFou) :=
  minmod_mem_uIcc_left _ _ (mul_comm _ _)

theorem treTwoX_mem : s.treTwoX ∈ uIcc 0 (s.treThr - s.treTwo) :=
  minmod_mem_uIcc_left _ _ (mul_comm _ _)

theorem treThrX_mem_left : s.treThrX ∈ uIcc 0 (s.treThr - s.treTwo) :=
  minmod_mem_uIcc_left _ _ (mul_comm _ _)

theorem treThrX_mem_right : s.treThrX ∈ uIcc 0 (s.treFou - s.treThr) :=
  minmod_mem_uIcc_right _ _ (mul_comm _ _)

theorem treFouX_mem : s.treFouX ∈ uIcc 0 (s.treFou - s.treThr) :=
  minmod_mem_uIcc_right _ _ (mul_comm _ _)

theorem quaThrX_mem_left : s.quaThrX ∈ uIcc 0 (s.quaThr - s.quaTwo) :=
  minmod_mem_uIcc_left _ _ (mul_comm _ _)

theorem quaThrX_mem_right : s.quaThrX ∈ uIcc 0 (s.quaFou - s.quaThr) :=
  minmod_mem_uIcc_right _ _ (mul_comm _ _)

theorem quaFouX_mem : s.quaFouX ∈ uIcc 0 (s.quaFou - s.quaThr) :=
  minmod_mem_uIcc_right _ _ (mul_comm _ _)

theorem quaTwoX_mem : s.quaTwoX ∈ uIcc 0 (s.quaThr - s.quaTwo) :=
  minmod_mem_uIcc_left _ _ (mul_comm _ _)

theorem dosThrX_mem_left : s.dosThrX ∈ uIcc 0 (s.dosThr - s.dosTwo) :=
  minmod_mem_uIcc_left _ _ rfl

theorem dosThrX_mem_right : s.dosThrX ∈ uIcc 0 (s.dosFou - s.dosThr) :=
  minmod_mem_uIcc_right _ _ rfl

theorem dosFouX_mem : s.dosFouX ∈ uIcc 0 (s.dosFou - s.dosThr) :=
  minmod_mem_uIcc_right _ _ (mul_comm _ _)

theorem treTwoY_mem_up : s.treTwoY ∈ uIcc 0 (s.treTwo - s.dosTwo) :=
  minmod_mem_uIcc_left _ _ rfl

theorem treTwoY_mem_down : s.treTwoY ∈ uIcc 0 (s.quaTwo - s.treTwo) :=
  minmod_mem_uIcc_right _ _ rfl

theorem quaTwoY_mem : s.quaTwoY ∈ uIcc 0 (s.quaTwo - s.treTwo) :=
  minmod_mem_uIcc_right _ _ rfl

theorem dosTwoX_mem : s.dosTwoX ∈ uIcc 0 (s.dosThr - s.dosTwo) :=
  minmod_mem_uIcc_left _ _ (mul_comm _ _)

theorem dosTwoY_mem : s.dosTwoY ∈ uIcc 0 (s.treTwo - s.dosTwo) :=
  minmod_mem_uIcc_left _ _ (mul_comm _ _)

end Stencil

section Bounds

variable {L H : K} (s : Stencil K)

theorem treThr_mem_Icc (treThr : s.treThr ∈ Icc L H) (treFou : s.treFou ∈ Icc L H)
    (quaThr : s.quaThr ∈ Icc L H) (quaFou : s.quaFou ∈ Icc L H) :
    (nohaloSubdivision s).treThr ∈ Icc L H := by
  have c11 := corner_mem_Icc treThr treFou quaThr s.treThrX_mem_right s.treThrY_mem_down
  have c21 := corner_mem_Icc treFou treThr quaFou (neg_mem_uIcc_sub s.treFouX_mem)
    s.treFouY_mem_down
  have c12 := corner_mem_Icc quaThr quaFou treThr s.quaThrX_mem_right
    (neg_mem_uIcc_sub s.quaThrY_mem)
  have c22 := corner_mem_Icc quaFou quaThr treFou (neg_mem_uIcc_sub s.quaFouX_mem)
    (neg_mem_uIcc_sub s.quaFouY_mem)
  convert mean_mem_Icc c11 c21 c12 c22 using 1
  simp only [nohaloSubdivision]
  ring

theorem unoThr_mem_Icc (dosThr : s.dosThr ∈ Icc L H) (dosFou : s.dosFou ∈ Icc L H)
    (treThr : s.treThr ∈ Icc L H) (treFou : s.treFou ∈ Icc L H) :
    (nohaloSubdivision s).unoThr ∈ Icc L H := by
  have c11 := corner_mem_Icc dosThr dosFou treThr s.dosThrX_mem_right s.dosThrY_mem
  have c21 := corner_mem_Icc dosFou dosThr treFou (neg_mem_uIcc_sub s.dosFouX_mem) s.dosFouY_mem
  have c12 := corner_mem_Icc treThr treFou dosThr s.treThrX_mem_right
    (neg_mem_uIcc_sub s.treThrY_mem_up)
  have c22 := corner_mem_Icc treFou treThr dosFou (neg_mem_uIcc_sub s.treFouX_mem)
    (neg_mem_uIcc_sub s.treFouY_mem_up)
  convert mean_mem_Icc c11 c21 c12 c22 using 1
  simp only [nohaloSubdivision]
  ring

theorem treOne_mem_Icc (treTwo : s.treTwo ∈ Icc L H) (treThr : s.treThr ∈ Icc L H)
    (quaTwo : s.quaTwo ∈ Icc L H) (quaThr : s.quaThr ∈ Icc L H) :
    (nohaloSubdivision s).treOne ∈ Icc L H := by
  have c11 := corner_mem_Icc treTwo treThr quaTwo s.treTwoX_mem s.treTwoY_mem_down
  have c21 := corner_mem_Icc treThr treTwo quaThr (neg_mem_uIcc_sub s.treThrX_mem_left)
    s.treThrY_mem_down
  have c12 := corner_mem_Icc quaTwo quaThr treTwo s.quaTwoX_mem (neg_mem_uIcc_sub s.quaTwoY_mem)
  have c22 := corner_mem_Icc quaThr quaTwo treThr (neg_mem_uIcc_sub s.quaThrX_mem_left)
    (neg_mem_uIcc_sub s.quaThrY_mem)
  convert mean_mem_Icc c11 c21 c12 c22 using 1
  simp only [nohaloSubdivision]
  ring

theorem unoOne_mem_Icc (dosTwo : s.dosTwo ∈ Icc L H) (dosThr : s.dosThr ∈ Icc L H)
    (treTwo : s.treTwo ∈ Icc L H) (treThr : s.treThr ∈ Icc L H) :
    (nohaloSubdivision s).unoOne ∈ Icc L H := by
  have c11 := corner_mem_Icc dosTwo dosThr treTwo s.dosTwoX_mem s.dosTwoY_mem
  have c21 := corner_mem_Icc dosThr dosTwo treThr (neg_mem_uIcc_sub s.dosThrX_mem_left)
    s.dosThrY_mem
  have c12 := corner_mem_Icc treTwo treThr dosTwo s.treTwoX_mem (neg_mem_uIcc_sub s.treTwoY_mem_up)
  have c22 := corner_mem_Icc treThr treTwo dosThr (neg_mem_uIcc_sub s.treThrX_mem_left)
    (neg_mem_uIcc_sub s.treThrY_mem_up)
  convert mean_mem_Icc c11 c21 c12 c22 using 1
  simp only [nohaloSubdivision]
  ring

theorem unoTwo_mem_uIcc : (nohaloSubdivision s).unoTwo ∈ uIcc s.dosThr s.treThr :=
  edge_mem_uIcc s.dosThrY_mem s.treThrY_mem_up

theorem treTwo_mem_uIcc : (nohaloSubdivision s).treTwo ∈ uIcc s.treThr s.quaThr :=
  edge_mem_uIcc s.treThrY_mem_down s.quaThrY_mem

theorem treFou_mem_uIcc : (nohaloSubdivision s).treFou ∈ uIcc s.treFou s.quaFou :=
  edge_mem_uIcc s.treFouY_mem_down s.quaFouY_mem

theorem unoFou_mem_uIcc : (nohaloSubdivision s).unoFou ∈ uIcc s.dosFou s.treFou :=
  edge_mem_uIcc s.dosFouY_mem s.treFouY_mem_up

theorem dosOne_mem_uIcc : (nohaloSubdivision s).dosOne ∈ uIcc s.treTwo s.treThr :=
  edge_mem_uIcc s.treTwoX_mem s.treThrX_mem_left

theorem dosThr_mem_uIcc : (nohaloSubdivision s).dosThr ∈ uIcc s.treThr s.treFou :=
  edge_mem_uIcc s.treThrX_mem_right s.treFouX_mem

theorem quaThr_mem_uIcc : (nohaloSubdivision s).quaThr ∈ uIcc s.quaThr s.quaFou :=
  edge_mem_uIcc s.quaThrX_mem_right s.quaFouX_mem

theorem quaOne_mem_uIcc : (nohaloSubdivision s).quaOne ∈ uIcc s.quaTwo s.quaThr :=
  edge_mem_uIcc s.quaTwoX_mem s.quaThrX_mem_left

/-- The subdivision stays within every interval that holds its 21 input values. -/
theorem nohaloSubdivision_mem_Icc (within : ∀ v ∈ s.values, v ∈ Icc L H) :
    ∀ v ∈ (nohaloSubdivision s).values, v ∈ Icc L H := by
  simp only [Stencil.values, List.forall_mem_cons, List.not_mem_nil, false_implies,
    implies_true, and_true] at within
  obtain ⟨-, -, -, -, dosTwo, dosThr, dosFou, -, -, treTwo, treThr, treFou, -, -, quaTwo, quaThr,
    quaFou, -⟩ := within
  simp only [Patch.values, List.forall_mem_cons, List.not_mem_nil, false_implies, implies_true,
    and_true]
  exact ⟨unoOne_mem_Icc s dosTwo dosThr treTwo treThr,
    uIcc_subset_Icc dosThr treThr (unoTwo_mem_uIcc s),
    unoThr_mem_Icc s dosThr dosFou treThr treFou,
    uIcc_subset_Icc dosFou treFou (unoFou_mem_uIcc s),
    uIcc_subset_Icc treTwo treThr (dosOne_mem_uIcc s), treThr,
    uIcc_subset_Icc treThr treFou (dosThr_mem_uIcc s), treFou,
    treOne_mem_Icc s treTwo treThr quaTwo quaThr,
    uIcc_subset_Icc treThr quaThr (treTwo_mem_uIcc s),
    treThr_mem_Icc s treThr treFou quaThr quaFou,
    uIcc_subset_Icc treFou quaFou (treFou_mem_uIcc s),
    uIcc_subset_Icc quaTwo quaThr (quaOne_mem_uIcc s), quaThr,
    uIcc_subset_Icc quaThr quaFou (quaThr_mem_uIcc s), quaFou⟩

end Bounds

end Lohalo
end Gegl
