import Mathlib.Tactic.Ring
import Ava6.Bv.Rewriter.Node

/-! Comparisons of an extended term with a constant: the bits of the constant above the term decide the comparison,
or the constant is cut down to the size of the term.
-/

namespace Ava6.Bv.Rewriter

open Library

/-- The two functions of a rewrite rule on atoms. -/
structure AtomRule where
  applies : Formula → Bool
  apply : Formula → Formula

/-- The extended term and the constant, and whether the extension is on the left. -/
structure ExtendedConst where
  isLhs : Bool
  t : Node
  c : Vec

/-- An application of one of the kinds on one side and a constant on the other. -/
def matchExtended (isExtend : Kind → Bool) : Node → Node → Option ExtendedConst
  | .apply k (.cons t _), .const c => if isExtend k then some ⟨true, t, c⟩ else none
  | .const c, .apply k (.cons t _) => if isExtend k then some ⟨false, t, c⟩ else none
  | _, _ => none

def Kind.isZeroExtend : Kind → Bool
  | .zeroExtend _ => true
  | _ => false

def Kind.isSignExtend : Kind → Bool
  | .signExtend _ => true
  | _ => false

/-- `extract` on constants, and the zero of its size. -/
def zeroLike (a : Vec) : Vec := ⟨a.width, 0⟩

def complement (a : Vec) : Vec := ⟨a.width, ~~~a.bits⟩

namespace ZeroExtendEqConst

def applies : Formula → Bool
  | .equal left right => (matchExtended Kind.isZeroExtend left right).isSome
  | _ => false

def rewrite (m : ExtendedConst) : Formula :=
  let cSize := m.c.width
  let tSize := m.t.getSize
  let c_hi := m.c.extract (cSize - 1) tSize
  let c_lo := m.c.extract (tSize - 1) 0
  if c_hi = zeroLike c_hi then .equal m.t (.const c_lo) else .const false

def apply : Formula → Formula
  | .equal left right =>
      match matchExtended Kind.isZeroExtend left right with
      | some m => rewrite m
      | none => .equal left right
  | f => f

def rule : AtomRule := ⟨applies, apply⟩

end ZeroExtendEqConst

namespace SignExtendEqConst

def applies : Formula → Bool
  | .equal left right => (matchExtended Kind.isSignExtend left right).isSome
  | _ => false

def rewrite (m : ExtendedConst) : Formula :=
  let pos_msb_t := m.t.getSize - 1
  let c_hi := m.c.extract (m.c.width - 1) pos_msb_t
  let c_lo := m.c.extract pos_msb_t 0
  if c_hi = zeroLike c_hi ∨ c_hi = complement (zeroLike c_hi) then .equal m.t (.const c_lo) else .const false

def apply : Formula → Formula
  | .equal left right =>
      match matchExtended Kind.isSignExtend left right with
      | some m => rewrite m
      | none => .equal left right
  | f => f

def rule : AtomRule := ⟨applies, apply⟩

end SignExtendEqConst

namespace ZeroExtendUltConst

def accepts (m : ExtendedConst) : Bool :=
  let tSize := m.t.getSize
  let cSize := m.c.width
  let c_hi := m.c.extract (cSize - 1) tSize
  tSize != cSize && decide (c_hi = zeroLike c_hi)

def applies : Formula → Bool
  | .ult left right => (matchExtended Kind.isZeroExtend left right).any accepts
  | _ => false

def rewrite (m : ExtendedConst) : Formula :=
  let c_lo := Node.const (m.c.extract (m.t.getSize - 1) 0)
  if m.isLhs then .ult m.t c_lo else .ult c_lo m.t

def apply : Formula → Formula
  | .ult left right =>
      match matchExtended Kind.isZeroExtend left right with
      | some m => rewrite m
      | none => .ult left right
  | f => f

def rule : AtomRule := ⟨applies, apply⟩

end ZeroExtendUltConst

namespace SignExtendUltConst

/-- `1 << (n - 1)` -/
def bv_msb_x (m : ExtendedConst) : Vec := ⟨m.c.width, BitVec.twoPow m.c.width (m.t.getSize - 1)⟩

/-- `~0 << (n - 1)` -/
def bv_upper_bits (m : ExtendedConst) : Vec :=
  ⟨m.c.width, ~~~(0#m.c.width) <<< BitVec.ofNat m.c.width (m.t.getSize - 1)⟩

def accepts (m : ExtendedConst) : Bool :=
  let bv_c := m.c.toNat
  let msb := (bv_msb_x m).toNat
  let upper := (bv_upper_bits m).toNat
  let notMsb := (complement (bv_msb_x m)).toNat
  let notUpper := (complement (bv_upper_bits m)).toNat
  (m.isLhs && (decide (bv_c ≤ msb) || decide (bv_c ≥ upper) || (decide (msb < bv_c) && decide (bv_c ≤ upper))))
  || (!m.isLhs
      && (decide (bv_c < msb) || decide (bv_c ≥ notMsb) || (decide (notUpper ≤ bv_c) && decide (bv_c ≤ notMsb))))

def applies : Formula → Bool
  | .ult left right => (matchExtended Kind.isSignExtend left right).any accepts
  | _ => false

def rewrite (m : ExtendedConst) : Formula :=
  let bv_c := m.c.toNat
  let msb_x_pos := m.t.getSize - 1
  let c_lo := Node.const (m.c.extract msb_x_pos 0)
  let msb_x := mkExtract m.t msb_x_pos msb_x_pos
  if m.isLhs then
    if (bv_msb_x m).toNat < bv_c ∧ bv_c ≤ (bv_upper_bits m).toNat then .equal msb_x (mkZero 1)
    else .ult m.t c_lo
  else if (complement (bv_upper_bits m)).toNat ≤ bv_c ∧ bv_c ≤ (complement (bv_msb_x m)).toNat then
    .equal msb_x (mkOne 1)
  else .ult c_lo m.t

def apply : Formula → Formula
  | .ult left right =>
      match matchExtended Kind.isSignExtend left right with
      | some m => rewrite m
      | none => .ult left right
  | f => f

def rule : AtomRule := ⟨applies, apply⟩

end SignExtendUltConst

section Numbers

variable {x : Node} {m : Nat} {c : Vec}

/-- The range of the constant is a multiple of that of the term, at least twice as large. -/
theorem exists_range (positive : 0 < x.getSize) (extended : 1 ≤ m) (width : c.width = x.getSize + m)
    : ∃ p q, 0 < p ∧ 2 ≤ q ∧ 2 ^ (x.getSize - 1) = p ∧ 2 ^ x.getSize = 2 * p ∧ 2 ^ m = q
      ∧ 2 ^ c.width = 2 * p * q := by
  obtain ⟨n, isSize⟩ : ∃ n, x.getSize = n + 1 := ⟨x.getSize - 1, by omega⟩
  obtain ⟨k, isAmount⟩ : ∃ k, m = k + 1 := ⟨m - 1, by omega⟩
  refine ⟨2 ^ n, 2 ^ m, Nat.two_pow_pos n, ?_, by rw [isSize, Nat.add_sub_cancel], by rw [isSize, Nat.pow_succ'],
    rfl, by rw [width, isSize, Nat.pow_add, Nat.pow_succ']⟩
  rw [isAmount, Nat.pow_succ']
  exact Nat.le_mul_of_pos_right 2 (Nat.two_pow_pos k)

/-- The start of the range is not changed by cutting, and its end moves down. -/
theorem cut_of_ends {p q k : Nat} (atLeastOne : 1 ≤ q) (below : k < 2 * p * q)
    : (k < 2 * p → k % (2 * p) = k) ∧ (2 * p * q ≤ k + 2 * p → k % (2 * p) + 2 * p * q = k + 2 * p) := by
  refine ⟨Nat.mod_eq_of_lt, fun isEnd => ?_⟩
  obtain ⟨r, isSucc⟩ : ∃ r, q = r + 1 := ⟨q - 1, by omega⟩
  rw [isSucc, Nat.mul_succ] at below isEnd ⊢
  have isRest : k = k - 2 * p * r + 2 * p * r := by omega
  rw [isRest, Nat.add_mul_mod_self_left, Nat.mod_eq_of_lt (by omega)]
  omega

theorem toNat_bv_msb_x (isLhs : Bool) (positive : 0 < x.getSize) (width : c.width = x.getSize + m)
    : (SignExtendUltConst.bv_msb_x ⟨isLhs, x, c⟩).toNat = 2 ^ (x.getSize - 1) := by
  have inside : x.getSize - 1 < c.width := by omega
  exact BitVec.toNat_twoPow_of_lt inside

theorem toNat_complement (a : Vec) : (complement a).toNat = 2 ^ a.width - 1 - a.toNat := BitVec.toNat_not

/-- The constant that the sign extensions of negative numbers start from. -/
theorem toNat_bv_upper_bits (isLhs : Bool) (positive : 0 < x.getSize) (width : c.width = x.getSize + m)
    : (SignExtendUltConst.bv_upper_bits ⟨isLhs, x, c⟩).toNat = 2 ^ c.width - 2 ^ (x.getSize - 1) := by
  have inside : x.getSize - 1 < c.width := by omega
  have amount : (x.getSize - 1) % 2 ^ c.width = x.getSize - 1 :=
    Nat.mod_eq_of_lt (inside.trans Nat.lt_two_pow_self)
  have most : 2 ^ (x.getSize - 1) ≤ 2 ^ c.width := Nat.pow_le_pow_right Nat.two_pos inside.le
  have small := Nat.two_pow_pos (x.getSize - 1)
  rw [Vec.toNat, SignExtendUltConst.bv_upper_bits, BitVec.shiftLeft_eq', BitVec.toNat_shiftLeft, BitVec.toNat_ofNat,
    amount, BitVec.toNat_not, BitVec.toNat_ofNat, Nat.zero_mod, Nat.sub_zero, Nat.shiftLeft_eq, Nat.sub_mul,
    Nat.one_mul]
  generalize 2 ^ (x.getSize - 1) = p at most small
  have shifted : 2 ^ c.width * p - p = 2 ^ c.width - p + 2 ^ c.width * (p - 1) := by
    rw [Nat.mul_sub, Nat.mul_one]
    have atLeast : 2 ^ c.width ≤ 2 ^ c.width * p := Nat.le_mul_of_pos_right _ small
    omega
  rw [shifted, Nat.add_mul_mod_self_left, Nat.mod_eq_of_lt (by omega)]

/-- The bits from the sign bit on are those of a negative number. -/
theorem div_eq_ones {p q k : Nat} (positive : 0 < p) (atLeastOne : 1 ≤ q) (below : k < 2 * p * q)
    : k / p = 2 * q - 1 ↔ 2 * p * q ≤ k + p := by
  obtain ⟨r, isSucc⟩ : ∃ r, q = r + 1 := ⟨q - 1, by omega⟩
  have isRange : 2 * p * q = p * (2 * r + 1) + p := by rw [isSucc]; ring
  have isOnes : 2 * q - 1 = 2 * r + 1 := by omega
  rw [isRange] at below ⊢
  rw [isOnes, Nat.div_eq_iff positive, Nat.mul_comm (2 * r + 1) p]
  omega

end Numbers

/-- An atom with the extension on the left or on the right. -/
def orient (relation : Node → Node → Formula) (isLhs : Bool) (extension constant : Node) : Formula :=
  if isLhs then relation extension constant else relation constant extension

/-- Where the rule applies, its result has a sort and the truth value of the atom. -/
def Simplifies (V : Valuation) (rule : AtomRule) (f : Formula) : Prop :=
  rule.applies f = true → (rule.apply f).WellSorted ∧ (rule.apply f).holds V = f.holds V

section Comparisons

variable (V : Valuation) {x : Node} {m : Nat} {c : Vec}

theorem holds_orient_equal (isLhs : Bool) (left right : Node)
    : (orient .equal isLhs left right).holds V = (Formula.equal left right).holds V := by
  cases isLhs
  · exact Bool.beq_comm
  · rfl

theorem value_below (x : Node) : (x.value V).toNat < 2 ^ x.getSize := by
  have below := (x.value V).toNat_lt
  rwa [Node.width_value] at below

/-- The number of the sign extension. -/
theorem toNat_value_signExtend (x : Node) (m : Nat)
    : ((mkSignExtend x m).value V).toNat
      = if (x.value V).toNat < 2 ^ (x.getSize - 1) then (x.value V).toNat
        else (x.value V).toNat + (2 ^ (x.getSize + m) - 2 ^ x.getSize) := by
  rw [value_mkSignExtend, Vec.toNat_signExtend, Node.width_value]

theorem wellSorted_cut (sorted : x.WellSorted) : (Node.const (c.extract (x.getSize - 1) 0)).WellSorted := by
  have size := sorted.isSize
  rw [Node.WellSorted, Node.wellSorted, Vec.width_extract, Nat.sub_zero, Nat.sub_add_cancel sorted.positive]
  exact size

theorem getSize_cut (sorted : x.WellSorted) : (Node.const (c.extract (x.getSize - 1) 0)).getSize = x.getSize := by
  rw [Node.getSize, Vec.width_extract, Nat.sub_zero, Nat.sub_add_cancel sorted.positive]

theorem zeroLike_iff (a : Vec) : a = zeroLike a ↔ a.toNat = 0 := by
  rw [Vec.eq_iff_toNat (show a.width = (zeroLike a).width from rfl)]
  exact Iff.rfl

theorem holds_cut_equal (sorted : x.WellSorted)
    : (Formula.equal x (.const (c.extract (x.getSize - 1) 0))).holds V = true
      ↔ (x.value V).toNat = c.toNat % 2 ^ x.getSize := by
  rw [holds_equal_iff V (getSize_cut sorted).symm, ← Vec.toNat_extract_zero c sorted.positive]
  rfl

/-- An equality with a zero extension is one of the lower bits if the upper bits are zero, and fails
otherwise.
-/
theorem zeroExtendEqConst_simplifies (sorted : x.WellSorted) (extended : 1 ≤ m) (width : c.width = x.getSize + m)
    (isLhs : Bool)
    : Simplifies V ZeroExtendEqConst.rule (orient .equal isLhs (mkZeroExtend x m) (.const c)) := by
  intro _
  have isRewritten : ZeroExtendEqConst.rule.apply (orient .equal isLhs (mkZeroExtend x m) (.const c))
      = ZeroExtendEqConst.rewrite ⟨isLhs, x, c⟩ := by cases isLhs <;> rfl
  have original : (Formula.equal (mkZeroExtend x m) (.const c)).holds V = true ↔ (x.value V).toNat = c.toNat := by
    rw [holds_equal_iff V (by rw [mkZeroExtend, getSize_mkNode]; exact width.symm), value_mkZeroExtend,
      Vec.toNat_zeroExtend]
    rfl
  obtain ⟨p, q, pPositive, twice, -, isRange, -, -⟩ := exists_range sorted.positive extended width
  have below := value_below V x
  rw [isRange] at below
  have high : (c.extract (c.width - 1) x.getSize).toNat = c.toNat / (2 * p) := by
    rw [Vec.toNat_extract_top c (by omega), isRange]
  rw [isRewritten, holds_orient_equal, Bool.eq_iff_iff, original, ZeroExtendEqConst.rewrite]
  split
  · next isZero =>
      rw [zeroLike_iff, high] at isZero
      have small : c.toNat < 2 * p := (Nat.div_eq_zero_iff_lt (by omega)).mp isZero
      refine ⟨⟨sorted, wellSorted_cut sorted, (getSize_cut sorted).symm⟩, ?_⟩
      rw [holds_cut_equal V sorted, isRange, Nat.mod_eq_of_lt small]
  · next isLarge =>
      rw [zeroLike_iff, high] at isLarge
      have large : 2 * p ≤ c.toNat := Nat.not_lt.mp (fun small => isLarge (Nat.div_eq_of_lt small))
      exact ⟨trivial, fun impossible => absurd impossible Bool.false_ne_true, fun same => by omega⟩

theorem complement_zeroLike_iff (a : Vec) : a = complement (zeroLike a) ↔ a.toNat = 2 ^ a.width - 1 := by
  rw [Vec.eq_iff_toNat (show a.width = (complement (zeroLike a)).width from rfl), toNat_complement]
  exact Iff.rfl

/-- An equality with a sign extension is one of the lower bits if the upper bits copy the sign, and fails
otherwise.
-/
theorem signExtendEqConst_simplifies (sorted : x.WellSorted) (extended : 1 ≤ m) (width : c.width = x.getSize + m)
    (isLhs : Bool)
    : Simplifies V SignExtendEqConst.rule (orient .equal isLhs (mkSignExtend x m) (.const c)) := by
  intro _
  have isRewritten : SignExtendEqConst.rule.apply (orient .equal isLhs (mkSignExtend x m) (.const c))
      = SignExtendEqConst.rewrite ⟨isLhs, x, c⟩ := by cases isLhs <;> rfl
  obtain ⟨p, q, pPositive, twice, isSign, isRange, isExtension, constRange⟩ :=
    exists_range sorted.positive extended width
  have below := value_below V x
  have constBelow := c.toNat_lt
  rw [isRange] at below
  rw [constRange] at constBelow
  have original : (Formula.equal (mkSignExtend x m) (.const c)).holds V = true
      ↔ (if (x.value V).toNat < p then (x.value V).toNat else (x.value V).toNat + (2 * p * q - 2 * p)) = c.toNat := by
    rw [holds_equal_iff V (by rw [mkSignExtend, getSize_mkNode]; exact width.symm), toNat_value_signExtend, isSign,
      isRange, ← width, constRange]
    rfl
  have highWidth : c.width - 1 - (x.getSize - 1) + 1 = m + 1 := by
    have := sorted.positive
    omega
  have cut := cut_of_ends (by omega) constBelow
  have quarter : 4 * p ≤ 2 * p * q := by
    have := Nat.mul_le_mul_left (2 * p) twice
    omega
  have atEnd : (c.extract (c.width - 1) (x.getSize - 1) = zeroLike (c.extract (c.width - 1) (x.getSize - 1))
      ∨ c.extract (c.width - 1) (x.getSize - 1) = complement (zeroLike (c.extract (c.width - 1) (x.getSize - 1))))
      ↔ c.toNat < p ∨ 2 * p * q ≤ c.toNat + p := by
    rw [zeroLike_iff, complement_zeroLike_iff, Vec.width_extract, highWidth, Nat.pow_succ', isExtension,
      Vec.toNat_extract_top c (by have := sorted.positive; omega), isSign, div_eq_ones pPositive (by omega) constBelow,
      Nat.div_eq_zero_iff_lt pPositive]
  rw [isRewritten, holds_orient_equal, Bool.eq_iff_iff, original, SignExtendEqConst.rewrite]
  generalize 2 * p * q = range at *
  split
  · next isEnd =>
      rw [atEnd] at isEnd
      refine ⟨⟨sorted, wellSorted_cut sorted, (getSize_cut sorted).symm⟩, ?_⟩
      rw [holds_cut_equal V sorted, isRange]
      dsimp only
      split <;> omega
  · next inMiddle =>
      rw [atEnd] at inMiddle
      refine ⟨trivial, fun impossible => absurd impossible Bool.false_ne_true, fun same => ?_⟩
      split at same <;> omega

/-- A comparison with a zero extension is one of the lower bits, unless the upper bits decide it. -/
theorem zeroExtendUltConst_simplifies (sorted : x.WellSorted) (extended : 1 ≤ m) (width : c.width = x.getSize + m)
    (isLhs : Bool)
    : Simplifies V ZeroExtendUltConst.rule (orient .ult isLhs (mkZeroExtend x m) (.const c)) := by
  intro applies
  have accepted : ZeroExtendUltConst.accepts ⟨isLhs, x, c⟩ = true := by cases isLhs <;> exact applies
  have isRewritten : ZeroExtendUltConst.rule.apply (orient .ult isLhs (mkZeroExtend x m) (.const c))
      = ZeroExtendUltConst.rewrite ⟨isLhs, x, c⟩ := by cases isLhs <;> rfl
  simp only [ZeroExtendUltConst.accepts, Bool.and_eq_true, decide_eq_true_eq, zeroLike_iff] at accepted
  have small : c.toNat < 2 ^ x.getSize := by
    have isZero := accepted.2
    rw [Vec.toNat_extract_top c (by omega)] at isZero
    exact (Nat.div_eq_zero_iff_lt (Nat.two_pow_pos _)).mp isZero
  have cut : (c.extract (x.getSize - 1) 0).toNat = c.toNat := by
    rw [Vec.toNat_extract_zero c sorted.positive, Nat.mod_eq_of_lt small]
  have isValue : ((mkZeroExtend x m).value V).toNat = (x.value V).toNat := by
    rw [value_mkZeroExtend, Vec.toNat_zeroExtend]
  rw [isRewritten, Bool.eq_iff_iff]
  cases isLhs with
  | true =>
      refine ⟨⟨sorted, wellSorted_cut sorted, (getSize_cut sorted).symm⟩, ?_⟩
      change (Formula.ult x (.const _)).holds V = true ↔ (Formula.ult (mkZeroExtend x m) (.const c)).holds V = true
      rw [holds_ult_iff, holds_ult_iff, isValue, Node.value, Node.value, cut]
  | false =>
      refine ⟨⟨wellSorted_cut sorted, sorted, getSize_cut sorted⟩, ?_⟩
      change (Formula.ult (.const _) x).holds V = true ↔ (Formula.ult (.const c) (mkZeroExtend x m)).holds V = true
      rw [holds_ult_iff, holds_ult_iff, isValue, Node.value, Node.value, cut]

/-- The sign bit of the term, as the rule compares it. -/
theorem holds_sign_equal (sorted : x.WellSorted) (b : Nat) (isBit : b < 2)
    : (Formula.equal (mkExtract x (x.getSize - 1) (x.getSize - 1)) (mkConst 1 b)).holds V = true
      ↔ (x.value V).toNat / 2 ^ (x.getSize - 1) = b := by
  have positive := sorted.positive
  rw [holds_equal_iff V (by rw [mkExtract, getSize_mkNode]; simp [Kind.getSize, mkConst, Node.getSize]),
    value_mkExtract, value_mkConst]
  have isWidth : x.getSize = (x.value V).width := (Node.width_value V x).symm
  have isTop := Vec.toNat_extract_top (x.value V) (show x.getSize - 1 < (x.value V).width by omega)
  rw [← isWidth] at isTop
  have isConst : (Vec.mk 1 (BitVec.ofNat 1 b)).toNat = b := (BitVec.toNat_ofNat _ _).trans (Nat.mod_eq_of_lt isBit)
  rw [isTop, isConst]

theorem wellSorted_sign (sorted : x.WellSorted) (b : Nat)
    : (Formula.equal (mkExtract x (x.getSize - 1) (x.getSize - 1)) (mkConst 1 b)).WellSorted := by
  have positive := sorted.positive
  refine ⟨wellSorted_mkNode.mpr ⟨?_, ?_, by simpa using sorted⟩, by simp [Node.WellSorted, Node.wellSorted, mkConst, isSize], ?_⟩
  · simp [Kind.accepts, positive]
  · simp [Kind.getSize, isSize]
  · rw [mkExtract, getSize_mkNode]
    simp [Kind.getSize, mkConst, Node.getSize]

/-- The bounds that delimit the branches, with the sign extension and the cut constant between them. -/
theorem signExtendUltConst_simplifies (sorted : x.WellSorted) (extended : 1 ≤ m) (width : c.width = x.getSize + m)
    (isLhs : Bool)
    : SignExtendUltConst.applies (orient .ult isLhs (mkSignExtend x m) (.const c)) = true
      ∧ Simplifies V SignExtendUltConst.rule (orient .ult isLhs (mkSignExtend x m) (.const c)) := by
  have isApplied : SignExtendUltConst.applies (orient .ult isLhs (mkSignExtend x m) (.const c))
      = SignExtendUltConst.accepts ⟨isLhs, x, c⟩ := by cases isLhs <;> rfl
  have isRewritten : SignExtendUltConst.rule.apply (orient .ult isLhs (mkSignExtend x m) (.const c))
      = SignExtendUltConst.rewrite ⟨isLhs, x, c⟩ := by cases isLhs <;> rfl
  have positive := sorted.positive
  have msb := toNat_bv_msb_x (c := c) isLhs positive width
  have upper := toNat_bv_upper_bits (c := c) isLhs positive width
  obtain ⟨p, q, pPositive, twice, isSign, isRange, -, constRange⟩ := exists_range positive extended width
  have below := value_below V x
  have constBelow := c.toNat_lt
  have notMsb : (complement (SignExtendUltConst.bv_msb_x ⟨isLhs, x, c⟩)).toNat = 2 * p * q - 1 - p := by
    rw [toNat_complement, msb, isSign]
    exact congrArg (· - 1 - p) constRange
  have notUpper : (complement (SignExtendUltConst.bv_upper_bits ⟨isLhs, x, c⟩)).toNat
      = 2 * p * q - 1 - (2 * p * q - p) := by
    rw [toNat_complement, upper, isSign, constRange]
    exact congrArg (· - 1 - (2 * p * q - p)) constRange
  have extension : ((mkSignExtend x m).value V).toNat
      = if (x.value V).toNat < p then (x.value V).toNat else (x.value V).toNat + (2 * p * q - 2 * p) := by
    rw [toNat_value_signExtend, isSign, isRange, ← width, constRange]
  have isCut : (c.extract (x.getSize - 1) 0).toNat = c.toNat % (2 * p) := by
    rw [Vec.toNat_extract_zero c positive, isRange]
  rw [isRange] at below
  rw [constRange] at constBelow
  rw [isSign] at msb
  rw [isSign, constRange] at upper
  have cut := cut_of_ends (by omega) constBelow
  have quarter : 4 * p ≤ 2 * p * q := by
    have := Nat.mul_le_mul_left (2 * p) twice
    omega
  have signBit : (x.value V).toNat / p = 0 ↔ (x.value V).toNat < p := Nat.div_eq_zero_iff_lt pPositive
  have signBit' : (x.value V).toNat / p = 1 ↔ p ≤ (x.value V).toNat := by
    rw [Nat.div_eq_iff pPositive]
    omega
  generalize 2 * p * q = range at *
  constructor
  · rw [isApplied, SignExtendUltConst.accepts]
    simp only [msb, upper, notMsb, notUpper, Bool.or_eq_true, Bool.and_eq_true, decide_eq_true_eq, Bool.not_eq_true']
    cases isLhs
    · exact Or.inr ⟨rfl, by omega⟩
    · exact Or.inl ⟨rfl, by omega⟩
  · intro _
    rw [isRewritten, Bool.eq_iff_iff, SignExtendUltConst.rewrite]
    simp only [msb, upper, notMsb, notUpper]
    cases isLhs with
    | true =>
        change _ ∧ (_ ↔ (Formula.ult (mkSignExtend x m) (.const c)).holds V = true)
        rw [if_pos rfl, holds_ult_iff, extension]
        split
        · refine ⟨wellSorted_sign sorted 0, ?_⟩
          rw [mkZero, holds_sign_equal V sorted 0 (by decide), isSign, signBit, Node.value]
          split <;> omega
        · refine ⟨⟨sorted, wellSorted_cut sorted, (getSize_cut sorted).symm⟩, ?_⟩
          rw [holds_ult_iff, Node.value, Node.value, isCut]
          split <;> omega
    | false =>
        change _ ∧ (_ ↔ (Formula.ult (.const c) (mkSignExtend x m)).holds V = true)
        rw [if_neg Bool.false_ne_true, holds_ult_iff, extension]
        split
        · refine ⟨wellSorted_sign sorted 1, ?_⟩
          rw [mkOne, holds_sign_equal V sorted 1 (by decide), isSign, signBit', Node.value]
          split <;> omega
        · refine ⟨⟨wellSorted_cut sorted, sorted, getSize_cut sorted⟩, ?_⟩
          rw [holds_ult_iff, Node.value, Node.value, isCut]
          split <;> omega

end Comparisons

/-- Comparisons of an extension, by at least one bit, with a constant on either side are simplified to equivalent
formulas over the term, and the cases of a signed comparison cover every constant.
-/
theorem extended_constants_simplified (V : Valuation) {x : Node} {m : Nat} {c : Vec} (sorted : x.WellSorted)
    (extended : 1 ≤ m) (width : c.width = x.getSize + m) (isLhs : Bool)
    : Simplifies V ZeroExtendEqConst.rule (orient .equal isLhs (mkZeroExtend x m) (.const c))
      ∧ Simplifies V SignExtendEqConst.rule (orient .equal isLhs (mkSignExtend x m) (.const c))
      ∧ Simplifies V ZeroExtendUltConst.rule (orient .ult isLhs (mkZeroExtend x m) (.const c))
      ∧ Simplifies V SignExtendUltConst.rule (orient .ult isLhs (mkSignExtend x m) (.const c))
      ∧ SignExtendUltConst.applies (orient .ult isLhs (mkSignExtend x m) (.const c)) = true :=
  ⟨zeroExtendEqConst_simplifies V sorted extended width isLhs, signExtendEqConst_simplifies V sorted extended width isLhs,
    zeroExtendUltConst_simplifies V sorted extended width isLhs,
    (signExtendUltConst_simplifies V sorted extended width isLhs).2,
    (signExtendUltConst_simplifies V sorted extended width isLhs).1⟩

/-- A variable of four bits, extended by three and compared with the largest positive number. -/
theorem extended_constants_simplified_four_bits
    : SignExtendUltConst.apply (.ult (mkSignExtend (.var 4 0) 3) (mkConst 7 63))
        = .equal (mkExtract (.var 4 0) 3 3) (mkZero 1)
      ∧ Simplifies (fun n _ => BitVec.ofNat n 12) SignExtendUltConst.rule
          (.ult (mkSignExtend (.var 4 0) 3) (mkConst 7 63)) :=
  ⟨by decide, (extended_constants_simplified (fun n _ => BitVec.ofNat n 12) (x := .var 4 0) (m := 3)
    (c := ⟨7, BitVec.ofNat 7 63⟩) (by decide) (by decide) (by decide) true).2.2.2.1⟩

end Ava6.Bv.Rewriter
