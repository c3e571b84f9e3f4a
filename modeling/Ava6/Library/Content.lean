import Mathlib.Algebra.Field.Rat
import Mathlib.Algebra.Group.Subgroup.ZPowers.Basic
import Mathlib.Data.Rat.Cast.Order
import Mathlib.RingTheory.Coprime.Lemmas
import Mathlib.Tactic.FieldSimp
import Mathlib.Tactic.LinearCombination

/-! The content of rational numbers: the greatest common divisor of their numerators over the least common multiple
of their denominators. It generates the group they generate, so that dividing by it makes them coprime integers.
-/

namespace Ava6.Library

open AddSubgroup

section Fractions

variable {a b c d : ℕ}

theorem coprime_gcd_lcm (first : a.Coprime b) (second : c.Coprime d) : (a.gcd c).Coprime (b.lcm d) := by
  have ofFirst : (a.gcd c).Coprime b := first.coprime_dvd_left (Nat.gcd_dvd_left a c)
  have ofSecond : (a.gcd c).Coprime d := second.coprime_dvd_left (Nat.gcd_dvd_right a c)
  exact (ofFirst.mul_right ofSecond).coprime_dvd_right (Nat.lcm_dvd_mul b d)

theorem zmultiples_of_coprime {x : ℚ} {m n : ℤ} (coprime : IsCoprime m n)
    : zmultiples (m * x) ⊔ zmultiples (n * x) = zmultiples x := by
  refine le_antisymm (sup_le ?_ ?_) ?_
  · rw [zmultiples_le]
    exact ⟨m, zsmul_eq_mul x m⟩
  · rw [zmultiples_le]
    exact ⟨n, zsmul_eq_mul x n⟩
  · obtain ⟨u, w, combination⟩ := coprime
    rw [zmultiples_le]
    have combined : x = u • (m * x) + w • (n * x) := by
      have cast : (u : ℚ) * m + w * n = 1 := by exact_mod_cast combination
      rw [zsmul_eq_mul, zsmul_eq_mul]
      linear_combination -x * cast
    have member := add_mem_sup (zsmul_mem_zmultiples (m * x) u) (zsmul_mem_zmultiples (n * x) w)
    rwa [← combined] at member

/-- Two reduced fractions generate the multiples of their common content. -/
theorem zmultiples_sup (first : a.Coprime b) (second : c.Coprime d) (bPositive : 0 < b) (dPositive : 0 < d)
    : zmultiples ((a : ℚ) / b) ⊔ zmultiples ((c : ℚ) / d) = zmultiples ((a.gcd c : ℚ) / b.lcm d) := by
  obtain ⟨a', c', coprimeNumerators, isA, isC⟩ := Nat.exists_coprime a c
  obtain ⟨b', d', coprimeDenominators, isB, isD⟩ := Nat.exists_coprime b d
  have gcdPositive : 0 < b.gcd d := Nat.gcd_pos_of_pos_left d bPositive
  have coprime : IsCoprime ((a' * d' : ℕ) : ℤ) ((c' * b' : ℕ) : ℤ) := by
    rw [Nat.isCoprime_iff_coprime]
    refine Nat.Coprime.mul_left (coprimeNumerators.mul_right ?_) (Nat.Coprime.mul_right ?_ coprimeDenominators.symm)
    · exact (first.coprime_dvd_left ⟨_, isA⟩).coprime_dvd_right ⟨_, isB⟩
    · exact ((second.coprime_dvd_left ⟨_, isC⟩).coprime_dvd_right ⟨_, isD⟩).symm
  have product := Nat.gcd_mul_lcm b d
  generalize a.gcd c = g at isA isC ⊢
  generalize b.gcd d = e at isB isD gcdPositive product
  generalize b.lcm d = l at product ⊢
  subst isA isB isC isD
  have isLcm : l = b' * d' * e := by
    refine Nat.eq_of_mul_eq_mul_left gcdPositive (product.trans ?_)
    ring
  have bNonzero : (b' : ℚ) ≠ 0 := by
    rintro isZero
    simp [Nat.cast_eq_zero.mp isZero] at bPositive
  have dNonzero : (d' : ℚ) ≠ 0 := by
    rintro isZero
    simp [Nat.cast_eq_zero.mp isZero] at dPositive
  have eNonzero : (e : ℚ) ≠ 0 := Nat.cast_ne_zero.mpr gcdPositive.ne'
  have isFirst : ((a' * g : ℕ) : ℚ) / (b' * e : ℕ) = ((a' * d' : ℕ) : ℤ) * ((g : ℚ) / l) := by
    rw [isLcm]
    push_cast
    field_simp
  have isSecond : ((c' * g : ℕ) : ℚ) / (d' * e : ℕ) = ((c' * b' : ℕ) : ℤ) * ((g : ℚ) / l) := by
    rw [isLcm]
    push_cast
    field_simp
  rw [isFirst, isSecond, zmultiples_of_coprime coprime]

end Fractions

def commonDenominator (rs : List ℚ) : ℕ := rs.foldl (fun l r => l.lcm r.den) 1

def commonNumerator (rs : List ℚ) : ℕ := rs.foldl (fun g r => g.gcd r.num.natAbs) 0

def content (rs : List ℚ) : ℚ := commonNumerator rs / commonDenominator rs

theorem zmultiples_natAbs (r : ℚ) : zmultiples ((r.num.natAbs : ℚ) / r.den) = zmultiples r := by
  rcases Int.natAbs_eq r.num with positive | negative
  · have same : (r.num.natAbs : ℚ) / r.den = r := by
      nth_rewrite 3 [← Rat.num_div_den r]
      rw [positive]
      simp
    rw [same]
  · have same : (r.num.natAbs : ℚ) / r.den = -r := by
      nth_rewrite 3 [← Rat.num_div_den r]
      rw [negative]
      simp [neg_div]
    rw [same, zmultiples_neg]

/-- What the loop over some numbers computes, from reduced fractions on. -/
theorem content_step (rs : List ℚ) {g l : ℕ} (coprime : g.Coprime l) (positive : 0 < l)
    : (rs.foldl (fun g r => g.gcd r.num.natAbs) g).Coprime (rs.foldl (fun l r => l.lcm r.den) l)
      ∧ 0 < rs.foldl (fun l r => l.lcm r.den) l
      ∧ zmultiples (((rs.foldl (fun g r => g.gcd r.num.natAbs) g : ℕ) : ℚ)
          / (rs.foldl (fun l r => l.lcm r.den) l : ℕ))
        = zmultiples ((g : ℚ) / l) ⊔ AddSubgroup.closure { r | r ∈ rs } := by
  induction rs generalizing g l with
  | nil =>
      refine ⟨coprime, positive, ?_⟩
      simp
  | cons r rs ih =>
      have reduced : r.num.natAbs.Coprime r.den := r.reduced
      obtain ⟨isCoprime, isPositive, generates⟩ :=
        ih (coprime_gcd_lcm coprime reduced) (Nat.lcm_pos positive r.den_pos)
      refine ⟨isCoprime, isPositive, ?_⟩
      rw [List.foldl_cons, List.foldl_cons, generates, ← zmultiples_sup coprime reduced positive r.den_pos,
        zmultiples_natAbs, sup_assoc]
      congr 1
      have members : { s | s ∈ r :: rs } = insert r { s | s ∈ rs } := by
        ext s
        simp
      rw [members, Set.insert_eq, AddSubgroup.closure_union, zmultiples_eq_closure]

/-- The content generates what the numbers generate. -/
theorem zmultiples_content (rs : List ℚ) : zmultiples (content rs) = AddSubgroup.closure { r | r ∈ rs } := by
  have generates := (content_step rs (Nat.coprime_one_right 0) Nat.one_pos).2.2
  rw [Nat.cast_zero, zero_div, zmultiples_zero_eq_bot, bot_sup_eq] at generates
  exact generates

theorem content_nonneg (rs : List ℚ) : 0 ≤ content rs := by
  exact div_nonneg (Nat.cast_nonneg _) (Nat.cast_nonneg _)

theorem content_pos {rs : List ℚ} {r : ℚ} (member : r ∈ rs) (nonzero : r ≠ 0) : 0 < content rs := by
  refine lt_of_le_of_ne (content_nonneg rs) (fun isZero => nonzero ?_)
  have inClosure : r ∈ zmultiples (content rs) := by
    rw [zmultiples_content]
    exact AddSubgroup.subset_closure member
  rwa [← isZero, zmultiples_zero_eq_bot, mem_bot] at inClosure

/-- The numbers are integral multiples of their content. -/
theorem exists_multiple {rs : List ℚ} {r : ℚ} (member : r ∈ rs) : ∃ z : ℤ, r = z * content rs := by
  have inClosure : r ∈ zmultiples (content rs) := by
    rw [zmultiples_content]
    exact AddSubgroup.subset_closure member
  obtain ⟨z, isMultiple⟩ := mem_zmultiples_iff.mp inClosure
  exact ⟨z, by rw [← isMultiple, zsmul_eq_mul]⟩

/-- Positive numbers that generate the same group are the same. -/
theorem eq_of_zmultiples {x y : ℚ} (xPositive : 0 < x) (yPositive : 0 < y)
    (same : zmultiples x = zmultiples y)
    : x = y := by
  have inY : x ∈ zmultiples y := same ▸ mem_zmultiples x
  have inX : y ∈ zmultiples x := same ▸ mem_zmultiples y
  obtain ⟨m, isX⟩ := mem_zmultiples_iff.mp inY
  obtain ⟨n, isY⟩ := mem_zmultiples_iff.mp inX
  rw [zsmul_eq_mul] at isX isY
  have atLeastOne {k : ℤ} {z : ℚ} (zPositive : 0 < z) (productPositive : 0 < k * z) : (1 : ℚ) ≤ k := by
    have kPositive : (0 : ℚ) < k := (mul_pos_iff_of_pos_right zPositive).mp productPositive
    exact_mod_cast Int.cast_pos.mp kPositive
  have yAtMost : y ≤ x := by
    rw [← isX]
    exact le_mul_of_one_le_left yPositive.le (atLeastOne yPositive (isX ▸ xPositive))
  have xAtMost : x ≤ y := by
    rw [← isY]
    exact le_mul_of_one_le_left xPositive.le (atLeastOne xPositive (isY ▸ yPositive))
  exact le_antisymm xAtMost yAtMost

theorem closure_map_mul (rs : List ℚ) (c : ℚ)
    : AddSubgroup.closure { r | r ∈ rs.map (· * c) } = (AddSubgroup.closure { r | r ∈ rs }).map (AddMonoidHom.mulRight c) := by
  rw [AddMonoidHom.map_closure]
  congr 1
  ext r
  simp [List.mem_map]

/-- The content of multiples. -/
theorem content_map_mul (rs : List ℚ) {c : ℚ} (nonzero : ∃ r ∈ rs, r ≠ 0) (differs : c ≠ 0)
    : content (rs.map (· * c)) = content rs * |c| := by
  obtain ⟨r, member, rNonzero⟩ := nonzero
  have positive := content_pos member rNonzero
  have scaled : r * c ∈ rs.map (· * c) := List.mem_map_of_mem member
  refine eq_of_zmultiples (content_pos scaled (mul_ne_zero rNonzero differs)) (mul_pos positive (abs_pos.mpr differs)) ?_
  rw [zmultiples_content, closure_map_mul, ← zmultiples_content, AddMonoidHom.map_zmultiples]
  rcases abs_choice c with isSame | isNegated
  · rw [isSame]
    rfl
  · rw [isNegated, mul_neg, zmultiples_neg]
    rfl

end Ava6.Library
