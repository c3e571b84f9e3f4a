import Ava6.Library.BitVecOrder
import Mathlib.Data.Nat.ModEq
import Mathlib.Data.Int.GCD
import Mathlib.Data.Nat.Prime.Basic
import Mathlib.Tactic.Zify

/-! Sets of bit-vectors that arise as images of arithmetic and bitwise operations: initial
segments, multiples of a power of two, parts and extensions of a mask, sign extensions, with their extremes, and
the mask `-s ||| s` that spans the multiples of a vector.
-/

namespace Ava6.Library.BitVecOrder

variable {w : Nat}

/-- Signed order of two values of equal sign, and of a negative against a nonnegative one. -/
theorem toInt_le_iff (positive : 0 < w) (x y : BitVec w)
    : x.toInt ≤ y.toInt
      ↔ (2 ^ (w - 1) ≤ x.toNat ∧ y.toNat < 2 ^ (w - 1))
        ∨ (x.toNat ≤ y.toNat ∧ (y.toNat < 2 ^ (w - 1) ∨ 2 ^ (w - 1) ≤ x.toNat)) := by
  rw [← BitVec.sle_iff_toInt_le]
  exact sle_iff positive

/-- Extremes of the values up to `b`; a segment that reaches the sign bit contains both
the least and the greatest signed value. -/
def Extremes.segment (positive : 0 < w) (b : BitVec w)
    : Extremes (fun r : BitVec w => r.toNat ≤ b.toNat) :=
  have low := toNat_minSigned positive
  have high := toNat_maxSigned positive
  have half : 0 < 2 ^ (w - 1) := Nat.two_pow_pos _
  if large : 2 ^ (w - 1) ≤ b.toNat then
    { ulo := 0#w, uhi := b
      slo := BitVec.twoPow w (w - 1), shi := ~~~BitVec.twoPow w (w - 1)
      ulo_mem := by simp
      uhi_mem := Nat.le_refl _
      slo_mem := by omega
      shi_mem := by omega
      ulo_le := by simp
      le_uhi := fun _ member => member
      slo_le := fun r _ => (toInt_le_iff positive _ _).mpr (by omega)
      le_shi := fun r _ => (toInt_le_iff positive _ _).mpr (by omega) }
  else
    { ulo := 0#w, uhi := b, slo := 0#w, shi := b
      ulo_mem := by simp
      uhi_mem := Nat.le_refl _
      slo_mem := by simp
      shi_mem := Nat.le_refl _
      ulo_le := by simp
      le_uhi := fun _ member => member
      slo_le := fun r member => (toInt_le_iff positive _ _).mpr (by simp; omega)
      le_shi := fun r member => (toInt_le_iff positive _ _).mpr (by omega) }

def Extremes.singleton (b : BitVec w) : Extremes (fun r => r = b) where
  ulo := b
  uhi := b
  slo := b
  shi := b
  ulo_mem := rfl
  uhi_mem := rfl
  slo_mem := rfl
  shi_mem := rfl
  ulo_le := fun _ member => member ▸ Nat.le_refl _
  le_uhi := fun _ member => member ▸ Nat.le_refl _
  slo_le := fun _ member => member ▸ Int.le_refl _
  le_shi := fun _ member => member ▸ Int.le_refl _

-- Multiples of a power of two

theorem toNat_allOnes_shiftLeft {k : Nat} (bound : k ≤ w)
    : (BitVec.allOnes w <<< k).toNat = 2 ^ w - 2 ^ k := by
  have grow : 2 ^ k ≤ 2 ^ w := Nat.pow_le_pow_right Nat.zero_lt_two bound
  have one : 1 ≤ 2 ^ k := Nat.one_le_two_pow
  rw [BitVec.toNat_shiftLeft, BitVec.toNat_allOnes, Nat.shiftLeft_eq]
  have split : (2 ^ w - 1) * 2 ^ k = (2 ^ w - 2 ^ k) + 2 ^ w * (2 ^ k - 1) := by
    zify [grow, one, Nat.one_le_two_pow (n := w)]
    ring
  rw [split, Nat.add_mul_mod_self_left, Nat.mod_eq_of_lt]
  omega

/-- Masking with `1…10…0` rounds down to a multiple of the power of two. -/
theorem toNat_and_allOnes_shiftLeft (t : BitVec w) (k : Nat)
    : (t &&& BitVec.allOnes w <<< k).toNat = t.toNat / 2 ^ k * 2 ^ k := by
  have bits : t &&& BitVec.allOnes w <<< k = t >>> k <<< k := by
    apply BitVec.eq_of_getLsbD_eq
    intro i bound
    simp only [BitVec.getLsbD_and, BitVec.getLsbD_shiftLeft, BitVec.getLsbD_ushiftRight,
      BitVec.getLsbD_allOnes, bound, decide_true, Bool.true_and]
    rcases Nat.lt_or_ge i k with below | above
    · simp [below]
    · have inner : k + (i - k) = i := by omega
      have small : i - k < w := by omega
      simp [inner, small, Nat.not_lt.mpr above]
  have bound : t.toNat / 2 ^ k * 2 ^ k < 2 ^ w :=
    Nat.lt_of_le_of_lt (Nat.div_mul_le_self _ _) t.isLt
  rw [bits, BitVec.toNat_shiftLeft, BitVec.toNat_ushiftRight, Nat.shiftRight_eq_div_pow,
    Nat.shiftLeft_eq, Nat.mod_eq_of_lt bound]

/-- The vectors the mask leaves alone are the multiples of the power of two. -/
theorem and_allOnes_shiftLeft_eq_iff (t : BitVec w) (k : Nat)
    : t &&& BitVec.allOnes w <<< k = t ↔ 2 ^ k ∣ t.toNat := by
  rw [BitVec.toNat_eq, toNat_and_allOnes_shiftLeft]
  exact ⟨fun value => value ▸ dvd_mul_left _ _, Nat.div_mul_cancel⟩

/-- A multiple below another one is below it by a whole step. -/
theorem add_le_of_dvd_of_lt {g a b : Nat} (left : g ∣ a) (right : g ∣ b) (less : a < b)
    : a + g ≤ b := by
  obtain ⟨p, rfl⟩ := left
  obtain ⟨q, rfl⟩ := right
  have order : p < q := Nat.lt_of_mul_lt_mul_left less
  calc g * p + g = g * (p + 1) := by ring
    _ ≤ g * q := Nat.mul_le_mul_left g order

/-- Extremes of the multiples of `2 ^ k`. -/
def Extremes.multiples (positive : 0 < w) {k : Nat} (bound : k ≤ w)
    : Extremes (fun r : BitVec w => 2 ^ k ∣ r.toNat) :=
  have low := toNat_minSigned positive
  have high := toNat_maxSigned positive
  have double := two_pow_eq_double_half positive
  have top := toNat_allOnes_shiftLeft bound
  have half : 0 < 2 ^ (w - 1) := Nat.two_pow_pos _
  have rounded := toNat_and_allOnes_shiftLeft (~~~BitVec.twoPow w (w - 1)) k
  have grow : 2 ^ k ∣ 2 ^ w := pow_dvd_pow 2 bound
  have uhi : 2 ^ k ∣ (BitVec.allOnes w <<< k).toNat := by
    rw [top]
    exact Nat.dvd_sub grow dvd_rfl
  have below (r : BitVec w) (member : 2 ^ k ∣ r.toNat)
      : r.toNat ≤ (BitVec.allOnes w <<< k).toNat := by
    have step := add_le_of_dvd_of_lt member grow r.isLt
    omega
  have shi : 2 ^ k ∣ (~~~BitVec.twoPow w (w - 1) &&& BitVec.allOnes w <<< k).toNat := by
    rw [rounded]
    exact dvd_mul_left _ _
  have shiLt : (~~~BitVec.twoPow w (w - 1) &&& BitVec.allOnes w <<< k).toNat < 2 ^ (w - 1) := by
    have le := (toNat_and_bounds (~~~BitVec.twoPow w (w - 1)) (BitVec.allOnes w <<< k)).1
    omega
  have above (r : BitVec w) (member : 2 ^ k ∣ r.toNat) (sign : r.toNat < 2 ^ (w - 1))
      : r.toNat ≤ (~~~BitVec.twoPow w (w - 1) &&& BitVec.allOnes w <<< k).toNat := by
    rw [rounded, high]
    obtain ⟨q, value⟩ := member
    rw [value, Nat.mul_comm]
    refine Nat.mul_le_mul_right _ ((Nat.le_div_iff_mul_le (Nat.two_pow_pos k)).mpr ?_)
    rw [Nat.mul_comm]
    omega
  if whole : k = w then
    { ulo := 0#w, uhi := BitVec.allOnes w <<< k
      slo := 0#w, shi := ~~~BitVec.twoPow w (w - 1) &&& BitVec.allOnes w <<< k
      ulo_mem := by simp
      uhi_mem := uhi
      slo_mem := by simp
      shi_mem := shi
      ulo_le := by simp
      le_uhi := below
      slo_le := fun r member => by
        have zero : r.toNat = 0 := Nat.eq_zero_of_dvd_of_lt member (whole ▸ r.isLt)
        exact (toInt_le_iff positive _ _).mpr (by simp [zero])
      le_shi := fun r member => by
        have zero : r.toNat = 0 := Nat.eq_zero_of_dvd_of_lt member (whole ▸ r.isLt)
        exact (toInt_le_iff positive _ _).mpr (by omega) }
  else
    { ulo := 0#w, uhi := BitVec.allOnes w <<< k
      slo := BitVec.twoPow w (w - 1)
      shi := ~~~BitVec.twoPow w (w - 1) &&& BitVec.allOnes w <<< k
      ulo_mem := by simp
      uhi_mem := uhi
      slo_mem := low ▸ pow_dvd_pow 2 (by omega)
      shi_mem := shi
      ulo_le := by simp
      le_uhi := below
      slo_le := fun r _ => (toInt_le_iff positive _ _).mpr (by omega)
      le_shi := fun r member => by
        have order := above r member
        exact (toInt_le_iff positive _ _).mpr (by omega) }

-- The lowest set bit

/-- Bit `k` is the lowest one set in `s`, or `k` is the width when there is none. -/
structure LowestBit (s : BitVec w) (k : Nat) : Prop where
  bound : k ≤ w
  clear : ∀ j < k, s.getLsbD j = false
  set : k < w → s.getLsbD k = true

/-- Every vector has a lowest set bit or none, by search from the least significant end. -/
theorem exists_lowestBit (s : BitVec w) : ∃ k, LowestBit s k := by
  by_cases found : ∃ k, k < w ∧ s.getLsbD k = true
  · refine ⟨Nat.find found, (Nat.find_spec found).1.le, ?_, fun _ => (Nat.find_spec found).2⟩
    intro j before
    have unset := Nat.find_min found before
    have inside := Nat.lt_trans before (Nat.find_spec found).1
    simpa [inside] using unset
  · refine ⟨w, Nat.le_refl w, ?_, fun absurd => (Nat.lt_irrefl w absurd).elim⟩
    intro j inside
    simpa using fun bit => found ⟨j, inside, bit⟩

/-- The mask `-s ||| s` has exactly the bits from the lowest set bit of `s` upwards. -/
theorem LowestBit.neg_or_self {s : BitVec w} {k : Nat} (lowest : LowestBit s k)
    : -s ||| s = BitVec.allOnes w <<< k := by
  apply BitVec.eq_of_getLsbD_eq
  intro i inside
  simp only [BitVec.getLsbD_or, BitVec.getLsbD_neg, BitVec.getLsbD_shiftLeft,
    BitVec.getLsbD_allOnes, inside, decide_true, Bool.true_and]
  rcases Nat.lt_or_ge i k with below | above
  · have none : ¬ ∃ j < i, s.getLsbD j = true := by
      rintro ⟨j, before, bit⟩
      simp [lowest.clear j (by omega)] at bit
    simp [lowest.clear i below, none, below]
  · have small : i - k < w := by omega
    have high := lowest.set (by omega)
    rcases Nat.eq_or_lt_of_le above with same | later
    · subst same
      simp [high, Nat.zero_lt_of_lt inside]
    · have some : ∃ j < i, s.getLsbD j = true := ⟨k, later, high⟩
      simp [some, small, Nat.not_lt.mpr above]

/-- The value is an odd multiple of `2 ^ k`, or zero when `k` is the width. -/
theorem LowestBit.value {s : BitVec w} {k : Nat} (lowest : LowestBit s k)
    : ∃ o, s.toNat = 2 ^ k * o ∧ (k < w → o % 2 = 1) := by
  refine ⟨s.toNat / 2 ^ k, (Nat.mul_div_cancel' ?_).symm, ?_⟩
  · rw [Nat.dvd_iff_mod_eq_zero]
    apply Nat.eq_of_testBit_eq
    intro j
    rw [Nat.testBit_mod_two_pow, Nat.zero_testBit]
    by_cases before : j < k
    · simpa [before, BitVec.getLsbD] using lowest.clear j before
    · simp [before]
  · intro inside
    have bit := lowest.set inside
    rw [BitVec.getLsbD, Nat.testBit_eq_decide_div_mod_eq] at bit
    simpa using bit

/-- The products with `s` are the multiples of its lowest set bit: the odd factor is
invertible modulo `2 ^ w`. -/
theorem LowestBit.exists_mul_eq_iff {s : BitVec w} {k : Nat} (lowest : LowestBit s k)
    (t : BitVec w)
    : (∃ x : BitVec w, x * s = t) ↔ 2 ^ k ∣ t.toNat := by
  obtain ⟨o, value, odd⟩ := lowest.value
  have grow : 2 ^ k ∣ 2 ^ w := pow_dvd_pow 2 lowest.bound
  constructor
  · rintro ⟨x, rfl⟩
    rw [BitVec.toNat_mul, Nat.dvd_mod_iff grow, value]
    exact Dvd.intro_left (x.toNat * o) (by ring)
  · rintro ⟨q, quotient⟩
    rcases Nat.eq_or_lt_of_le lowest.bound with whole | inside
    · subst whole
      have zero : t.toNat = 0 := Nat.eq_zero_of_dvd_of_lt ⟨q, quotient⟩ t.isLt
      exact ⟨0#k, by rw [BitVec.zero_mul]; exact BitVec.eq_of_toNat_eq (by simp [zero])⟩
    · have coprime : Nat.Coprime o (2 ^ w) :=
        Nat.Coprime.pow_right w (Nat.coprime_two_right.mpr (Nat.odd_iff.mpr (odd inside)))
      obtain ⟨inverse, unit⟩ := Nat.exists_mul_mod_eq_one_of_coprime coprime
        (Nat.one_lt_two_pow (by omega))
      refine ⟨BitVec.ofNat w (inverse * q), BitVec.eq_of_toNat_eq ?_⟩
      rw [BitVec.toNat_mul, BitVec.toNat_ofNat, Nat.mod_mul_mod, value]
      calc inverse * q * (2 ^ k * o) % 2 ^ w
          = o * inverse * (2 ^ k * q) % 2 ^ w := by ring_nf
        _ = 1 * (2 ^ k * q) % 2 ^ w := by rw [← Nat.mod_mul_mod, unit.2]
        _ = t.toNat := by rw [Nat.one_mul, ← quotient, Nat.mod_eq_of_lt t.isLt]

-- Masks

/-- A mask and its complement split a vector. -/
theorem toNat_and_add_and_not (x mask : BitVec w)
    : (x &&& mask).toNat + (x &&& ~~~mask).toNat = x.toNat := by
  have apart : (x &&& mask) &&& (x &&& ~~~mask) = 0#w := by
    apply BitVec.eq_of_getLsbD_eq
    intro i inside
    simp only [BitVec.getLsbD_and, BitVec.getLsbD_not, inside, BitVec.getLsbD_zero]
    cases mask.getLsbD i <;> simp
  have whole : (x &&& mask) ||| (x &&& ~~~mask) = x := by
    apply BitVec.eq_of_getLsbD_eq
    intro i inside
    simp only [BitVec.getLsbD_or, BitVec.getLsbD_and, BitVec.getLsbD_not, inside]
    cases mask.getLsbD i <;> simp
  have total := toNat_and_add_or (x &&& mask) (x &&& ~~~mask)
  rw [apart, whole] at total
  simpa using total.symm

/-- The sign bit alone, and the vector without it. -/
theorem toNat_and_sign (positive : 0 < w) (x : BitVec w)
    : (x.toNat < 2 ^ (w - 1) ∧ (x &&& BitVec.twoPow w (w - 1)).toNat = 0
        ∧ (x &&& ~~~BitVec.twoPow w (w - 1)).toNat = x.toNat)
      ∨ (2 ^ (w - 1) ≤ x.toNat ∧ (x &&& BitVec.twoPow w (w - 1)).toNat = 2 ^ (w - 1)
        ∧ (x &&& ~~~BitVec.twoPow w (w - 1)).toNat = x.toNat - 2 ^ (w - 1)) := by
  have split := toNat_and_add_and_not x (BitVec.twoPow w (w - 1))
  have sign := (toNat_and_bounds x (BitVec.twoPow w (w - 1))).2.2
  have low := toNat_minSigned positive
  have half : 0 < 2 ^ (w - 1) := Nat.two_pow_pos _
  have alone : x &&& BitVec.twoPow w (w - 1) = BitVec.twoPow w (w - 1) ∨ x &&& BitVec.twoPow w (w - 1) = 0#w := by
    rw [BitVec.and_twoPow]
    split
    · exact Or.inl rfl
    · exact Or.inr rfl
  rcases alone with isSet | isClear
  · right
    rw [isSet, low] at split sign ⊢
    omega
  · left
    rw [isClear, BitVec.toNat_ofNat, Nat.zero_mod] at split sign ⊢
    omega

/-- Extremes of the vectors whose bits are all in the mask. -/
def Extremes.submasks (positive : 0 < w) (mask : BitVec w)
    : Extremes (fun r : BitVec w => r &&& mask = r) :=
  have sign := toNat_and_sign positive mask
  have part (r : BitVec w) (member : r &&& mask = r)
      : r.toNat ≤ mask.toNat ∧ (2 ^ (w - 1) ≤ r.toNat → 2 ^ (w - 1) ≤ mask.toNat)
        ∧ (r &&& ~~~BitVec.twoPow w (w - 1)).toNat
          ≤ (mask &&& ~~~BitVec.twoPow w (w - 1)).toNat := by
    have bounds := toNat_and_bounds r mask
    have inside : (mask &&& ~~~BitVec.twoPow w (w - 1)) &&& r = r &&& ~~~BitVec.twoPow w (w - 1) := by
      rw [BitVec.and_comm, ← BitVec.and_assoc, member]
    have below := (toNat_and_bounds (mask &&& ~~~BitVec.twoPow w (w - 1)) r).1
    rw [member] at bounds
    rw [inside] at below
    omega
  { ulo := 0#w, uhi := mask
    slo := mask &&& BitVec.twoPow w (w - 1), shi := mask &&& ~~~BitVec.twoPow w (w - 1)
    ulo_mem := by simp
    uhi_mem := BitVec.and_self
    slo_mem := by rw [BitVec.and_comm, ← BitVec.and_assoc, BitVec.and_self]
    shi_mem := by rw [BitVec.and_comm, ← BitVec.and_assoc, BitVec.and_self]
    ulo_le := by simp
    le_uhi := fun r member => (part r member).1
    slo_le := fun r member => by
      have bounds := part r member
      exact (toInt_le_iff positive _ _).mpr (by omega)
    le_shi := fun r member => by
      have bounds := part r member
      have signs := toNat_and_sign positive r
      have bound := mask.isLt
      have double := two_pow_eq_double_half positive
      exact (toInt_le_iff positive _ _).mpr (by omega) }

/-- The complement reverses the signed order. -/
theorem slt_not (positive : 0 < w) (x y : BitVec w) : (~~~x).slt (~~~y) = y.slt x := by
  have xlt := x.isLt
  have ylt := y.isLt
  have double := two_pow_eq_double_half positive
  rw [Bool.eq_iff_iff, slt_iff positive, slt_iff positive, BitVec.toNat_not, BitVec.toNat_not]
  omega

/-- If some part of the mask is greater than a vector, then the part `(x - mask) &&& mask` is. -/
theorem slt_sub_and (positive : 0 < w) {x mask : BitVec w}
    (less : x.slt (mask &&& ~~~BitVec.twoPow w (w - 1)) = true)
    : x.slt ((x - mask) &&& mask) = true := by
  have flipped : (x - mask) &&& mask = mask &&& ~~~(mask - x - 1#w) := by
    rw [BitVec.not_sub_one_eq_not_add_one, ← BitVec.neg_eq_not_add, neg_sub, BitVec.and_comm]
  have split := toNat_and_add_and_not mask (mask - x - 1#w)
  have part := toNat_and_bounds mask (mask - x - 1#w)
  have sign := toNat_and_sign positive mask
  have difference := toNat_sub_cases mask x
  have pred := toNat_sub_cases (mask - x) 1#w
  rw [toNat_one positive] at pred
  have double := two_pow_eq_double_half positive
  have xlt := x.isLt
  have maskLt := mask.isLt
  rw [slt_iff positive] at less
  rw [flipped, slt_iff positive]
  omega

/-- Values of a vector with the sign bit set, and with all others set. -/
theorem toNat_or_sign (positive : 0 < w) (x : BitVec w)
    : (x.toNat < 2 ^ (w - 1) ∧ (x ||| BitVec.twoPow w (w - 1)).toNat = x.toNat + 2 ^ (w - 1)
        ∧ (x ||| ~~~BitVec.twoPow w (w - 1)).toNat = 2 ^ (w - 1) - 1)
      ∨ (2 ^ (w - 1) ≤ x.toNat ∧ (x ||| BitVec.twoPow w (w - 1)).toNat = x.toNat
        ∧ (x ||| ~~~BitVec.twoPow w (w - 1)).toNat = 2 ^ w - 1) := by
  have sign := toNat_and_sign positive x
  have withSign := toNat_and_add_or x (BitVec.twoPow w (w - 1))
  have withOthers := toNat_and_add_or x (~~~BitVec.twoPow w (w - 1))
  have low := toNat_minSigned positive
  have high := toNat_maxSigned positive
  have double := two_pow_eq_double_half positive
  omega

/-- Extremes of the vectors that have all bits of the mask. -/
def Extremes.supermasks (positive : 0 < w) (mask : BitVec w)
    : Extremes (fun r : BitVec w => r ||| mask = r) :=
  have sign := toNat_or_sign positive mask
  have whole (r : BitVec w) (member : r ||| mask = r)
      : mask.toNat ≤ r.toNat ∧ (2 ^ (w - 1) ≤ mask.toNat → 2 ^ (w - 1) ≤ r.toNat)
        ∧ (mask ||| BitVec.twoPow w (w - 1)).toNat ≤ (r ||| BitVec.twoPow w (w - 1)).toNat := by
    have bounds := toNat_or_bounds r mask
    have inside : (mask ||| BitVec.twoPow w (w - 1)) ||| r = r ||| BitVec.twoPow w (w - 1) := by
      rw [BitVec.or_comm, ← BitVec.or_assoc, member]
    have below := (toNat_or_bounds (mask ||| BitVec.twoPow w (w - 1)) r).1
    rw [member] at bounds
    rw [inside] at below
    omega
  { ulo := mask, uhi := BitVec.allOnes w
    slo := mask ||| BitVec.twoPow w (w - 1), shi := mask ||| ~~~BitVec.twoPow w (w - 1)
    ulo_mem := BitVec.or_self
    uhi_mem := by simp
    slo_mem := by rw [BitVec.or_comm, ← BitVec.or_assoc, BitVec.or_self]
    shi_mem := by rw [BitVec.or_comm, ← BitVec.or_assoc, BitVec.or_self]
    ulo_le := fun r member => (whole r member).1
    le_uhi := fun r _ => by
      have bound := r.isLt
      rw [BitVec.toNat_allOnes]
      omega
    slo_le := fun r member => by
      have bounds := whole r member
      have signs := toNat_or_sign positive r
      exact (toInt_le_iff positive _ _).mpr (by omega)
    le_shi := fun r member => by
      have bounds := whole r member
      have bound := r.isLt
      have double := two_pow_eq_double_half positive
      exact (toInt_le_iff positive _ _).mpr (by omega) }

-- Sign extensions

variable {wx ws : Nat}

theorem toInt_minSigned (positive : 0 < w) : (BitVec.twoPow w (w - 1)).toInt = -2 ^ (w - 1) := by
  have double := two_pow_eq_double_half positive
  rw [BitVec.toInt_eq_toNat_cond, toNat_minSigned positive, if_neg (by omega), double]
  push_cast
  ring

theorem toInt_maxSigned (positive : 0 < w) : (~~~BitVec.twoPow w (w - 1)).toInt = 2 ^ (w - 1) - 1 := by
  have double := two_pow_eq_double_half positive
  have half := Nat.two_pow_pos (w - 1)
  rw [BitVec.toInt_eq_toNat_cond, toNat_maxSigned positive, if_pos (by omega)]
  push_cast [Nat.cast_sub half]
  ring

/-- The vectors that are sign extensions are those in the signed range of the smaller width. -/
theorem exists_signExtend_iff (positive : 0 < wx) (r : BitVec (wx + ws))
    : (∃ x : BitVec wx, x.signExtend (wx + ws) = r) ↔ -2 ^ (wx - 1) ≤ r.toInt ∧ r.toInt < 2 ^ (wx - 1) := by
  constructor
  · rintro ⟨x, rfl⟩
    rw [BitVec.toInt_signExtend_of_le (Nat.le_add_right wx ws)]
    exact ⟨BitVec.le_toInt x, BitVec.toInt_lt⟩
  · rintro ⟨low, high⟩
    refine ⟨BitVec.ofInt wx r.toInt, BitVec.eq_of_toInt_eq ?_⟩
    rw [BitVec.toInt_signExtend_of_le (Nat.le_add_right wx ws), BitVec.toInt_ofInt_eq_self positive low high]

/-- Extremes of the sign extensions from a smaller width. -/
def Extremes.signExtended (positive : 0 < wx) : Extremes (fun r => ∃ x : BitVec wx, x.signExtend (wx + ws) = r) where
  ulo := 0#_
  uhi := BitVec.allOnes _
  slo := (BitVec.twoPow wx (wx - 1)).signExtend _
  shi := (~~~BitVec.twoPow wx (wx - 1)).signExtend _
  ulo_mem := by
    rw [exists_signExtend_iff positive, BitVec.toInt_zero]
    have half : (0 : Int) < 2 ^ (wx - 1) := Int.pow_pos (by decide)
    omega
  uhi_mem := by
    rw [exists_signExtend_iff positive, BitVec.toInt_allOnes, if_pos (by omega)]
    have half : (0 : Int) < 2 ^ (wx - 1) := Int.pow_pos (by decide)
    omega
  slo_mem := ⟨_, rfl⟩
  shi_mem := ⟨_, rfl⟩
  ulo_le := by simp
  le_uhi r _ := by
    have bound := r.isLt
    rw [BitVec.toNat_allOnes]
    omega
  slo_le := by
    rintro _ ⟨x, rfl⟩
    rw [BitVec.toInt_signExtend_of_le (Nat.le_add_right wx ws), BitVec.toInt_signExtend_of_le (Nat.le_add_right wx ws),
      toInt_minSigned positive]
    exact BitVec.le_toInt x
  le_shi := by
    rintro _ ⟨x, rfl⟩
    rw [BitVec.toInt_signExtend_of_le (Nat.le_add_right wx ws), BitVec.toInt_signExtend_of_le (Nat.le_add_right wx ws),
      toInt_maxSigned positive]
    exact Int.le_sub_one_of_lt BitVec.toInt_lt

theorem toInt_cast {n : Nat} (same : w = n) (x : BitVec w) : (x.cast same).toInt = x.toInt := by
  subst same
  rfl

/-- The sign extension of the greatest signed vector puts zeros before it. -/
theorem zero_append_maxSigned (positive : 0 < wx) (amount : 0 < ws)
    : (BitVec.ofNat ws 0 ++ ~~~BitVec.twoPow wx (wx - 1)).cast (Nat.add_comm ws wx)
      = (~~~BitVec.twoPow wx (wx - 1)).signExtend (wx + ws) := by
  apply BitVec.eq_of_toInt_eq
  rw [BitVec.toInt_signExtend_of_le (Nat.le_add_right wx ws), toInt_cast, BitVec.toInt_append,
    if_neg (by simpa using amount.ne'), toInt_maxSigned positive, toNat_maxSigned positive]
  push_cast [Nat.cast_sub (Nat.two_pow_pos (wx - 1))]
  simp

/-- The complement of the greatest signed vector is the least one. -/
theorem not_signExtend_maxSigned (positive : 0 < wx)
    : ~~~(~~~BitVec.twoPow wx (wx - 1)).signExtend (wx + ws) = (BitVec.twoPow wx (wx - 1)).signExtend (wx + ws) := by
  rw [BitVec.signExtend_not positive, BitVec.not_not]

/-- The first bits from the sign of the smaller width on are all equal for the sign extensions. -/
theorem slice_iff_signExtended (positive : 0 < wx) {t : BitVec (wx + ws)} {top : BitVec (ws + 1)}
    (slice : top.toNat = t.toNat / 2 ^ (wx - 1) % 2 ^ (ws + 1))
    : (top = 0#(ws + 1) ∨ top = BitVec.allOnes (ws + 1)) ↔ ∃ x : BitVec wx, x.signExtend (wx + ws) = t := by
  have widths : 2 ^ (wx + ws) = 2 ^ (wx - 1) * 2 ^ (ws + 1) := by
    rw [← Nat.pow_add]
    congr 1
    omega
  have bound := t.isLt
  rw [widths] at bound
  rw [Nat.mod_eq_of_lt (Nat.div_lt_of_lt_mul bound)] at slice
  have zero : t.toNat / 2 ^ (wx - 1) = 0 ↔ t.toNat < 2 ^ (wx - 1) := Nat.div_eq_zero_iff_lt (Nat.two_pow_pos _)
  have ones : t.toNat / 2 ^ (wx - 1) = 2 ^ (ws + 1) - 1 ↔ 2 ^ (wx - 1) * 2 ^ (ws + 1) - 2 ^ (wx - 1) ≤ t.toNat := by
    have quotient := Nat.div_lt_of_lt_mul bound
    rw [← Nat.mul_sub_one, Nat.mul_comm, ← Nat.le_div_iff_mul_le (Nat.two_pow_pos _)]
    omega
  have whole : 2 ^ (wx - 1) * 2 ^ (ws + 1) = 2 * (2 ^ (wx - 1) * 2 ^ ws) := by ring
  have part : 2 ^ (wx - 1) ≤ 2 ^ (wx - 1) * 2 ^ ws := Nat.le_mul_of_pos_right _ (Nat.two_pow_pos ws)
  have low : ((2 : Int) ^ (wx - 1)) = (2 ^ (wx - 1) : Nat) := by push_cast; rfl
  rw [exists_signExtend_iff positive, BitVec.toNat_eq, BitVec.toNat_eq, slice, BitVec.toInt_eq_toNat_cond, widths,
    BitVec.toNat_allOnes, ones, BitVec.toNat_ofNat, Nat.zero_mod, zero, low]
  split <;> omega

end Ava6.Library.BitVecOrder
