import Mathlib.Algebra.Order.Ring.Abs
import Mathlib.Tactic.Linarith
import Ava6.Bv.Rewriter.Node

/-! The rule that takes a common factor out of a signed comparison of two products whose factors are extended far
enough not to overflow. The comparison that remains is of the factors that differ, and the sign of the common one.
-/

namespace Ava6.Bv.Rewriter

open Library

namespace MultSltMult

-- The rule

/-- The terms that two extensions are of, and whether both are sign extensions. Otherwise the first is extended by
zeros.
-/
structure Factors where
  first : Node
  second : Node
  is_sext : Bool
  deriving DecidableEq

/-- A concatenation with zeros times a sign extension. Its children from the third on are not looked at. -/
def zeroAndSign : Node → Node → Option Factors
  | .apply .concat (.cons a0 (.cons a1 _)), .apply (.signExtend amount) (.cons b0 _) =>
      if a0 = mkZero a0.getSize ∧ a1.getSize ≤ a0.getSize ∧ b0.getSize ≤ amount then some ⟨a1, b0, false⟩ else none
  | _, _ => none

def signAndSign : Node → Node → Option Factors
  | .apply (.signExtend amount) (.cons a0 _), .apply (.signExtend amount') (.cons b0 _) =>
      if a0.getSize ≤ amount ∧ b0.getSize ≤ amount' then some ⟨a0, b0, true⟩ else none
  | _, _ => none

def extractExtTuple (node : Node) : Option Factors :=
  match node.children with
  | a :: b :: _ => zeroAndSign a b <|> signAndSign a b <|> zeroAndSign b a
  | _ => none

/-- The sum, the summand that stands on the right and the common factor, with the place of the sum among the factors
of the left product and that of the summand among those of the right one.
-/
structure Roles where
  addxt : Node
  x : Node
  a : Node
  sumFirst : Bool
  xFirst : Bool
  deriving DecidableEq

def findSum (ml : Factors) : Option (Node × Node × Bool) :=
  if ml.first.isKind .add then some (ml.first, ml.second, true)
  else if ml.second.isKind .add then some (ml.second, ml.first, false)
  else none

def findRoles (ml mr : Factors) : Option Roles :=
  match findSum ml with
  | none => none
  | some (addxt, a, sumFirst) =>
      let roles : Option Roles :=
        if mr.first = a then some ⟨addxt, mr.second, a, sumFirst, false⟩
        else if mr.second = a then some ⟨addxt, mr.first, a, sumFirst, true⟩
        else none
      if addxt.children.length > 2 then none
      else roles.filter (fun r => addxt.children[0]? == some r.x || addxt.children[1]? == some r.x)

/-- The factors of both products and their roles, where the rule applies. -/
def matchProducts (left right : Node) : Option (Factors × Factors × Roles) :=
  if !left.isKind .mult || !right.isKind .mult || left.children.length > 2 || right.children.length > 2 then none
  else
    match extractExtTuple left, extractExtTuple right with
    | some ml, some mr =>
        if ml.is_sext ≠ mr.is_sext then none else (findRoles ml mr).map (fun roles => (ml, mr, roles))
    | _, _ => none

def applies : Formula → Bool
  | .slt left right => (matchProducts left right).isSome
  | _ => false

/-- The difference stands for the other summand. -/
def result (is_sext : Bool) (addxt x a : Node) : Formula :=
  let t := mkNode .sub [addxt, x]
  let zero_t := mkZero t.getSize
  let zero_a := mkZero a.getSize
  let less := if is_sext then Formula.slt addxt x else Formula.ult addxt x
  .and (.not (.equal t zero_t)) (.and (.not (.equal a zero_a)) (.iff less (.sgt a zero_a)))

def apply : Formula → Formula
  | .slt left right =>
      match extractExtTuple left, extractExtTuple right with
      | some ml, some mr =>
          let addxt := if ml.first.isKind .add then ml.first else ml.second
          let a := if ml.first.isKind .add then ml.second else ml.first
          let x := if mr.first = a then mr.second else mr.first
          result ml.is_sext addxt x a
      | _, _ => .slt left right
  | f => f

-- Products

/-- A factor of the product has children that the match leaves out. -/
def hasLowChildren (node : Node) : Bool :=
  node.children.any (fun c => c.isKind .concat && decide (2 < c.children.length))

/-- The number of a factor before its extension. -/
def number (signed : Bool) (a : Vec) : Int := if signed then a.toInt else a.toNat

def Factors.product (fs : Factors) (V : Valuation) : Int :=
  number fs.is_sext (fs.first.value V) * (fs.second.value V).toInt

section Products

variable (V : Valuation) {node a b : Node} {fs : Factors}

/-- Numbers within two ranges have a product within the range of the widths together. -/
theorem product_bounds {α β w : Nat} {k z : Int} (fits : α + β ≤ w) (positive : 0 < β)
    (kBounds : -(2 : Int) ^ α < k ∧ k < 2 ^ α) (zBounds : -(2 : Int) ^ (β - 1) ≤ z ∧ z < 2 ^ (β - 1))
    : -(2 : Int) ^ (w - 1) ≤ k * z ∧ k * z < 2 ^ (w - 1) := by
  have magnitude : |k * z| < 2 ^ (w - 1) := by
    have kSmall : |k| < 2 ^ α := abs_lt.mpr kBounds
    have zSmall : |z| ≤ 2 ^ (β - 1) := abs_le.mpr ⟨zBounds.1, zBounds.2.le⟩
    calc |k * z| = |k| * |z| := abs_mul k z
      _ ≤ |k| * 2 ^ (β - 1) := mul_le_mul_of_nonneg_left zSmall (abs_nonneg k)
      _ < 2 ^ α * 2 ^ (β - 1) := mul_lt_mul_of_pos_right kSmall (by positivity)
      _ = 2 ^ (α + (β - 1)) := (pow_add 2 α (β - 1)).symm
      _ ≤ 2 ^ (w - 1) := pow_le_pow_right₀ (by decide) (by omega)
  exact ⟨(abs_lt.mp magnitude).1.le, (abs_lt.mp magnitude).2⟩

theorem toInt_of_bounds {w : Nat} {z : Int} (positive : 0 < w) (lower : -(2 : Int) ^ (w - 1) ≤ z)
    (upper : z < 2 ^ (w - 1))
    : z.bmod (2 ^ w) = z := by
  have twice : (2 : Int) ^ w = 2 * 2 ^ (w - 1) := by
    rw [← pow_succ', Nat.sub_add_cancel positive]
  refine Int.bmod_eq_of_le ?_ ?_ <;> push_cast <;> rw [twice] <;> omega

/-- A product of two sorted factors. -/
theorem toInt_mult (sorted : (mkNode .mult [a, b]).WellSorted)
    : ((mkNode .mult [a, b]).value V).toInt
      = ((a.value V).toInt * (b.value V).toInt).bmod (2 ^ (mkNode .mult [a, b]).getSize) := by
  have accepted := (wellSorted_mkNode.mp sorted).1
  have sameSize : b.getSize = a.getSize := by simpa [Kind.accepts] using accepted
  have sameWidth : (b.value V).width = (a.value V).width := by
    rw [Node.width_value, Node.width_value, sameSize]
  rw [value_mkNode, getSize_mkNode]
  change (Vec.zipWith (fun _ x y => x * y) (a.value V) (b.value V)).toInt = _
  rw [Vec.toInt_zipWith_mul sameWidth, Node.width_value]
  rfl

/-- The value of a concatenation of zeros and one term is that of the term. -/
theorem toInt_zeros (w : Nat) (n : Node) (positive : 0 < w)
    : ((Vec.mk w (0#w)).append (n.value V)).toInt = (n.value V).toNat := by
  have isNumber : ((Vec.mk w (0#w)).append (n.value V)).toNat = (n.value V).toNat := by
    rw [Vec.toNat_append, show (Vec.mk w (0#w)).toNat = 0 from BitVec.toNat_ofNat _ _, Nat.zero_mul, Nat.zero_add]
  rw [Vec.toInt_of_small, isNumber]
  have below := (n.value V).toNat_lt
  have room : 2 * 2 ^ (n.value V).width ≤ 2 ^ (w + (n.value V).width) := by
    rw [← Nat.pow_succ']
    exact Nat.pow_le_pow_right Nat.two_pos (by omega)
  rw [isNumber, Vec.width_append]
  exact Nat.lt_of_lt_of_le (by omega) room

theorem zeroAndSign_eq_some (extracted : zeroAndSign a b = some fs)
    : ∃ a1 rest amount tail,
        a = .apply .concat (.cons (mkZero (fs.first.getSize + a1)) (.cons fs.first rest))
        ∧ b = .apply (.signExtend amount) (.cons fs.second tail)
        ∧ fs.is_sext = false ∧ fs.second.getSize ≤ amount := by
  unfold zeroAndSign at extracted
  split at extracted
  · next a0 a1 rest amount b0 tail =>
      split at extracted
      · next fits =>
          cases extracted
          refine ⟨a0.getSize - a1.getSize, rest, amount, tail, ?_, rfl, rfl, fits.2.2⟩
          rw [Nat.add_sub_cancel' fits.2.1, ← fits.1]
      · cases extracted
  · cases extracted

theorem signAndSign_eq_some (extracted : signAndSign a b = some fs)
    : ∃ amount tail amount' tail',
        a = .apply (.signExtend amount) (.cons fs.first tail) ∧ b = .apply (.signExtend amount') (.cons fs.second tail')
        ∧ fs.is_sext = true ∧ fs.first.getSize ≤ amount ∧ fs.second.getSize ≤ amount' := by
  unfold signAndSign at extracted
  split at extracted
  · next amount a0 tail amount' b0 tail' =>
      split at extracted
      · next fits =>
          cases extracted
          exact ⟨amount, tail, amount', tail', rfl, rfl, rfl, fits.1, fits.2⟩
      · cases extracted
  · cases extracted

/-- The factor with zeros, where nothing stands below the term. -/
theorem zeroFactor {first : Node} {k : Nat} (sorted : (Node.apply .concat (.cons (mkZero k) (.cons first .nil))).WellSorted)
    : ((Node.apply .concat (.cons (mkZero k) (.cons first .nil))).value V).toInt = number false (first.value V)
      ∧ (Node.apply .concat (.cons (mkZero k) (.cons first .nil))).getSize = k + first.getSize := by
  have zeroSorted : (mkZero k).WellSorted :=
    sorted.child (by simp [Nodes.toList])
  refine ⟨?_, ?_⟩
  · change ((Vec.mk k (0#k)).append ((first.value V).append .empty)).toInt = _
    rw [Vec.append_empty, toInt_zeros V k first zeroSorted.positive]
    rfl
  · change k + (first.getSize + 0) = _
    rw [Nat.add_zero]

/-- The factor with copies of the sign. -/
theorem signFactor {first : Node} {amount : Nat} {tail : Nodes}
    (sorted : (Node.apply (.signExtend amount) (.cons first tail)).WellSorted)
    : ((Node.apply (.signExtend amount) (.cons first tail)).value V).toInt = number true (first.value V)
      ∧ (Node.apply (.signExtend amount) (.cons first tail)).getSize = first.getSize + amount ∧ first.WellSorted := by
  have isNode : Node.apply (.signExtend amount) (.cons first tail) = mkNode (.signExtend amount) (first :: tail.toList) := by
    rw [mkNode, Nodes.ofList, Nodes.ofList_toList]
  rw [isNode] at sorted ⊢
  obtain ⟨accepted, -, children⟩ := wellSorted_mkNode.mp sorted
  cases isTail : tail.toList with
  | nil =>
      refine ⟨?_, rfl, children first (by simp)⟩
      rw [value_mkNode]
      exact Vec.toInt_signExtend amount (first.value V)
  | cons =>
      rw [isTail] at accepted
      cases accepted

/-- The numbers of two factors do not overflow in a product that is as wide as both terms together. -/
theorem toInt_mult_of_fits {signed : Bool} {first second : Node} (sorted : (mkNode .mult [a, b]).WellSorted)
    (positive : 0 < first.getSize) (secondPositive : 0 < second.getSize)
    (fits : first.getSize + second.getSize ≤ (mkNode .mult [a, b]).getSize)
    (isProduct : (a.value V).toInt * (b.value V).toInt = number signed (first.value V) * (second.value V).toInt)
    : ((mkNode .mult [a, b]).value V).toInt = number signed (first.value V) * (second.value V).toInt := by
  have secondBounds := (second.value V).toInt_bounds
  rw [Node.width_value] at secondBounds
  have firstBounds : -(2 : Int) ^ first.getSize < number signed (first.value V)
      ∧ number signed (first.value V) < 2 ^ first.getSize := by
    have half : (2 : Int) ^ (first.getSize - 1) < 2 ^ first.getSize := pow_lt_pow_right₀ (by decide) (by omega)
    have signedBounds := (first.value V).toInt_bounds
    have below := (first.value V).toNat_lt
    rw [Node.width_value] at signedBounds below
    have belowInt : ((first.value V).toNat : Int) < 2 ^ first.getSize := by exact_mod_cast below
    cases signed
    · exact ⟨by rw [number, if_neg Bool.false_ne_true]; omega, belowInt⟩
    · exact ⟨by rw [number, if_pos rfl]; omega, by rw [number, if_pos rfl]; omega⟩
  have bounds := product_bounds fits secondPositive firstBounds secondBounds
  rw [toInt_mult V sorted, isProduct, toInt_of_bounds sorted.positive bounds.1 bounds.2]

theorem exists_factors (isMult : node.isKind .mult = true) (short : node.children.length ≤ 2)
    (extracted : extractExtTuple node = some fs)
    : ∃ a b, node = mkNode .mult [a, b]
        ∧ (zeroAndSign a b = some fs ∨ signAndSign a b = some fs ∨ zeroAndSign b a = some fs) := by
  match node with
  | .var _ _ | .const _ => cases isMult
  | .apply k nodes =>
      cases beq_iff_eq.mp isMult
      match isChildren : nodes.toList with
      | [] | [_] => simp [extractExtTuple, Node.children, isChildren] at extracted
      | _ :: _ :: _ :: _ => simp [Node.children, isChildren] at short
      | [a, b] =>
          refine ⟨a, b, by rw [mkNode, ← isChildren, Nodes.ofList_toList], ?_⟩
          simp only [extractExtTuple, Node.children, isChildren] at extracted
          cases zeroSign : zeroAndSign a b with
          | some found =>
              rw [zeroSign] at extracted
              exact Or.inl extracted
          | none =>
              cases signs : signAndSign a b with
              | some found =>
                  rw [zeroSign, signs] at extracted
                  exact Or.inr (Or.inl extracted)
              | none =>
                  rw [zeroSign, signs] at extracted
                  exact Or.inr (Or.inr extracted)

/-- The number of a product of a term extended by zeros and one extended by its sign, in either order. -/
theorem toInt_zeroAndSign (aSorted : a.WellSorted) (bSorted : b.WellSorted) (sameSize : a.getSize = b.getSize)
    (extracted : zeroAndSign a b = some fs) (noLow : (a.isKind .concat && decide (2 < a.children.length)) = false)
    : 0 < fs.first.getSize ∧ 0 < fs.second.getSize ∧ fs.first.getSize + fs.second.getSize ≤ a.getSize
      ∧ (a.value V).toInt * (b.value V).toInt = fs.product V ∧ fs.is_sext = false := by
  obtain ⟨a1, rest, amount, tail, isZero, isSign, isSigned, fits⟩ := zeroAndSign_eq_some extracted
  match rest with
  | .cons _ _ => simp [isZero, Node.isKind, Node.children, Nodes.toList] at noLow
  | .nil =>
      rw [isZero] at aSorted sameSize ⊢
      rw [isSign] at bSorted sameSize ⊢
      obtain ⟨zeroValue, zeroSize⟩ := zeroFactor V aSorted
      obtain ⟨signValue, signSize, secondSorted⟩ := signFactor V bSorted
      have firstSorted : fs.first.WellSorted :=
        aSorted.child (by simp [Nodes.toList])
      refine ⟨firstSorted.positive, secondSorted.positive, by omega, ?_, isSigned⟩
      rw [zeroValue, signValue, Factors.product, isSigned]
      rfl

theorem toInt_signAndSign (aSorted : a.WellSorted) (bSorted : b.WellSorted) (sameSize : a.getSize = b.getSize)
    (extracted : signAndSign a b = some fs)
    : 0 < fs.first.getSize ∧ 0 < fs.second.getSize ∧ fs.first.getSize + fs.second.getSize ≤ a.getSize
      ∧ (a.value V).toInt * (b.value V).toInt = fs.product V ∧ fs.is_sext = true := by
  obtain ⟨amount, tail, amount', tail', isFirst, isSecond, isSigned, fits, fits'⟩ := signAndSign_eq_some extracted
  rw [isFirst] at aSorted sameSize ⊢
  rw [isSecond] at bSorted sameSize ⊢
  obtain ⟨firstValue, firstSize, firstSorted⟩ := signFactor V aSorted
  obtain ⟨secondValue, secondSize, secondSorted⟩ := signFactor V bSorted
  refine ⟨firstSorted.positive, secondSorted.positive, by omega, ?_, isSigned⟩
  rw [firstValue, secondValue, Factors.product, isSigned]
  rfl

/-- The number of a product is that of its two terms, where no factor has low children. -/
theorem toInt_product (isMult : node.isKind .mult = true) (short : node.children.length ≤ 2)
    (sorted : node.WellSorted) (extracted : extractExtTuple node = some fs) (noLow : hasLowChildren node = false)
    : (node.value V).toInt = fs.product V := by
  obtain ⟨a, b, isNode, cases⟩ := exists_factors isMult short extracted
  rw [isNode] at sorted noLow ⊢
  obtain ⟨accepted, -, children⟩ := wellSorted_mkNode.mp sorted
  have sameSize : a.getSize = b.getSize := by
    have same : b.getSize = a.getSize := by simpa [Kind.accepts] using accepted
    exact same.symm
  have aSorted := children a (by simp)
  have bSorted := children b (by simp)
  have size : (mkNode .mult [a, b]).getSize = a.getSize := by
    rw [getSize_mkNode]
    rfl
  simp only [hasLowChildren, mkNode, Node.children, Nodes.toList_ofList, List.any_cons, List.any_nil, Bool.or_false,
    Bool.or_eq_false_iff] at noLow
  rcases cases with zeroFirst | signs | zeroSecond
  · obtain ⟨positive, secondPositive, fits, isProduct, -⟩ :=
      toInt_zeroAndSign V aSorted bSorted sameSize zeroFirst noLow.1
    exact toInt_mult_of_fits V sorted positive secondPositive (by rw [size]; exact fits) isProduct
  · obtain ⟨positive, secondPositive, fits, isProduct, -⟩ := toInt_signAndSign V aSorted bSorted sameSize signs
    exact toInt_mult_of_fits V sorted positive secondPositive (by rw [size]; exact fits) isProduct
  · obtain ⟨positive, secondPositive, fits, isProduct, -⟩ :=
      toInt_zeroAndSign V bSorted aSorted sameSize.symm zeroSecond noLow.2
    exact toInt_mult_of_fits V sorted positive secondPositive (by rw [size, sameSize]; exact fits)
      (by rw [mul_comm]; exact isProduct)

end Products

theorem mul_lt_mul_iff_signs {y x a : Int} : y * a < x * a ↔ y ≠ x ∧ a ≠ 0 ∧ (y < x ↔ 0 < a) := by
  rcases lt_trichotomy a 0 with negative | rfl | positive
  · rw [mul_lt_mul_right_of_neg negative]
    omega
  · simp
  · rw [mul_lt_mul_iff_of_pos_right positive]
    omega

section Result

variable (V : Valuation) {addxt x a : Node}

theorem number_inj (signed : Bool) {v v' : Vec} (sameWidth : v.width = v'.width)
    : number signed v = number signed v' ↔ v.toNat = v'.toNat := by
  cases signed
  · exact Int.natCast_inj
  · exact Vec.toInt_inj sameWidth

/-- The result compares the products of the comment on the rule, whatever the places of its terms. -/
theorem holds_result (signed : Bool) (sameSize : addxt.getSize = x.getSize)
    : (result signed addxt x a).holds V = true
      ↔ number signed (addxt.value V) * (a.value V).toInt < number signed (x.value V) * (a.value V).toInt := by
  have sameWidth : (addxt.value V).width = (x.value V).width := by rw [Node.width_value, Node.width_value, sameSize]
  have less : ((if signed then Formula.slt addxt x else Formula.ult addxt x).holds V = true)
      ↔ number signed (addxt.value V) < number signed (x.value V) := by
    cases signed
    · rw [if_neg Bool.false_ne_true, holds_ult_iff]
      exact Int.ofNat_lt.symm
    · exact holds_slt_iff V addxt x
  have zeroInt (w : Nat) : ((mkZero w).value V).toInt = 0 := (Vec.toInt_eq_zero_iff _).mpr (toNat_mkZero V w)
  have positive : (Formula.sgt a (mkZero a.getSize)).holds V = true ↔ 0 < (a.value V).toInt := by
    rw [holds_sgt_iff, zeroInt]
  have isZero : (Formula.equal a (mkZero a.getSize)).holds V = true ↔ (a.value V).toInt = 0 := by
    rw [holds_equal_zero, Vec.toInt_eq_zero_iff]
  have isEqual : (Formula.equal (mkNode .sub [addxt, x]) (mkZero (mkNode .sub [addxt, x]).getSize)).holds V = true
      ↔ number signed (addxt.value V) = number signed (x.value V) := by
    rw [holds_equal_zero, value_mkNode, number_inj signed sameWidth]
    exact Vec.toNat_zipWith_sub_eq_zero_iff sameWidth.symm
  rw [mul_lt_mul_iff_signs, ne_eq, ne_eq, ← isEqual, ← less, ← positive, ← isZero, result, holds_and_iff,
    holds_and_iff, holds_not_iff, holds_not_iff, holds_iff_iff]

end Result

-- When the rule keeps the meaning

/-- The places and the signs of the terms for which the result is right. A factor that is extended by zeros is read as
such if it is the sum or its summand. If the common factor is, the signs have to make up for it; if it is extended in two
ways, there are no such signs where it is negative and the term next to its zeros as well.
-/
def Roles.Agree (V : Valuation) (is_sext : Bool) (r : Roles) : Prop :=
  let y := r.addxt.value V
  let x := r.x.value V
  let a := r.a.value V
  match is_sext, r.sumFirst, r.xFirst with
  | true, _, _ | false, true, true => True
  | false, false, false => a.toNat = 0 ∨ y.toNat = x.toNat ∨ (y.msb = x.msb ↔ a.msb = false)
  | false, true, false =>
      match a.msb, x.msb with
      | false, false => True
      | false, true => a.toNat = 0 ∨ x.toNat ≤ y.toNat
      | true, false => x.toNat = 0 ∨ x.toNat < y.toNat
      | true, true => False
  | false, false, true =>
      match a.msb, y.msb with
      | false, false => True
      | false, true => a.toNat = 0 ∨ y.toNat < x.toNat
      | true, false => y.toNat ≤ x.toNat
      | true, true => False

/-- The common factor is extended in two ways, and negative as is the term next to its zeros. -/
def Roles.BothNegative (V : Valuation) (is_sext : Bool) (r : Roles) : Prop :=
  is_sext = false ∧ r.sumFirst ≠ r.xFirst ∧ (r.a.value V).msb = true
    ∧ ((if r.sumFirst then r.x else r.addxt).value V).msb = true

section Exactness

variable (V : Valuation) {left right : Node} {ml mr : Factors} {r : Roles}

/-- The terms that the roles stand for. -/
structure RolesOf (ml mr : Factors) (r : Roles) : Prop where
  isSum : r.addxt.isKind .add = true
  sumFirst : ml.first.isKind .add = r.sumFirst
  addxt : r.addxt = if r.sumFirst then ml.first else ml.second
  common : r.a = if r.sumFirst then ml.second else ml.first
  xFirst : mr.first = r.a ↔ r.xFirst = false
  x : r.x = if r.xFirst then mr.first else mr.second
  other : r.a = if r.xFirst then mr.second else mr.first
  summand : r.x ∈ r.addxt.children

theorem findSum_eq_some {addxt a : Node} {sumFirst : Bool} (found : findSum ml = some (addxt, a, sumFirst))
    : addxt.isKind .add = true ∧ ml.first.isKind .add = sumFirst ∧ addxt = (if sumFirst then ml.first else ml.second)
      ∧ a = if sumFirst then ml.second else ml.first := by
  unfold findSum at found
  split at found
  · next isSum =>
      cases found
      exact ⟨isSum, isSum, rfl, rfl⟩
  · next notFirst =>
      split at found
      · next isSum =>
          cases found
          exact ⟨isSum, Bool.eq_false_iff.mpr notFirst, rfl, rfl⟩
      · cases found

theorem findRoles_eq_some (found : findRoles ml mr = some r) : RolesOf ml mr r := by
  unfold findRoles at found
  split at found
  · cases found
  · next addxt a sumFirst foundSum =>
      obtain ⟨isSum, isFirst, isAddxt, isCommon⟩ := findSum_eq_some foundSum
      dsimp only at found
      split at found
      · cases found
      · obtain ⟨isRoles, isSummand⟩ := Option.filter_eq_some_iff.mp found
        have summand : r.x ∈ r.addxt.children ∧ r.addxt = addxt := by
          have inChildren : r.x ∈ addxt.children := by
            rcases Bool.or_eq_true _ _ |>.mp isSummand with zeroth | first
            · exact List.mem_of_getElem? (beq_iff_eq.mp zeroth)
            · exact List.mem_of_getElem? (beq_iff_eq.mp first)
          have same : r.addxt = addxt := by
            split at isRoles
            · cases isRoles
              rfl
            · split at isRoles
              · cases isRoles
                rfl
              · cases isRoles
          exact ⟨same ▸ inChildren, same⟩
        split at isRoles
        · next isOther =>
            cases isRoles
            exact ⟨isSum, isFirst, isAddxt, isCommon, ⟨fun _ => rfl, fun _ => isOther⟩, rfl, isOther.symm, summand.1⟩
        · next notFirst =>
            split at isRoles
            · next isOther =>
                cases isRoles
                exact ⟨isSum, isFirst, isAddxt, isCommon, ⟨fun same => absurd same notFirst, fun no => by cases no⟩, rfl,
                  isOther.symm, summand.1⟩
            · cases isRoles

/-- What a match says about the nodes. -/
structure Matched (left right : Node) (ml mr : Factors) (r : Roles) : Prop where
  leftMult : left.isKind .mult = true
  rightMult : right.isKind .mult = true
  leftShort : left.children.length ≤ 2
  rightShort : right.children.length ≤ 2
  leftFactors : extractExtTuple left = some ml
  rightFactors : extractExtTuple right = some mr
  sameExtension : ml.is_sext = mr.is_sext
  roles : RolesOf ml mr r

/-- What the two products look like where the rule matches. -/
theorem matchProducts_eq_some (isMatch : matchProducts left right = some (ml, mr, r)) : Matched left right ml mr r := by
  unfold matchProducts at isMatch
  split at isMatch
  · cases isMatch
  · next shapes =>
      simp only [gt_iff_lt, Bool.or_eq_true, Bool.not_eq_true', decide_eq_true_eq, not_or, Bool.not_eq_false,
        Nat.not_lt] at shapes
      split at isMatch
      · next ml' mr' leftFactors rightFactors =>
          split at isMatch
          · cases isMatch
          · next sameExtension =>
              obtain ⟨roles, found, isTriple⟩ := Option.map_eq_some_iff.mp isMatch
              cases isTriple
              exact ⟨shapes.1.1.1, shapes.1.1.2, shapes.1.2, shapes.2, leftFactors, rightFactors,
                not_not.mp sameExtension, findRoles_eq_some found⟩
      · cases isMatch

/-- The rule builds its result from the terms of the roles. -/
theorem apply_eq (matched : Matched left right ml mr r)
    : apply (.slt left right) = result ml.is_sext r.addxt r.x r.a := by
  have roles := matched.roles
  have isCommon : (if ml.first.isKind .add = true then ml.second else ml.first) = r.a := by
    rw [roles.sumFirst, ← roles.common]
  have isAddxt : (if ml.first.isKind .add = true then ml.first else ml.second) = r.addxt := by
    rw [roles.sumFirst, ← roles.addxt]
  have isX : (if mr.first = r.a then mr.second else mr.first) = r.x := by
    by_cases isOther : mr.first = r.a
    · rw [if_pos isOther, roles.x, roles.xFirst.mp isOther, if_neg Bool.false_ne_true]
    · have isFirst : r.xFirst = true := by
        rw [← Bool.not_eq_false]
        exact fun no => isOther (roles.xFirst.mpr no)
      rw [if_neg isOther, roles.x, if_pos isFirst]
  simp only [apply, matched.leftFactors, matched.rightFactors, isCommon, isAddxt, isX]

theorem wellSorted_zeroAndSign {a b : Node} {fs : Factors} (aSorted : a.WellSorted) (bSorted : b.WellSorted)
    (extracted : zeroAndSign a b = some fs)
    : fs.first.WellSorted ∧ fs.second.WellSorted := by
  obtain ⟨_, _, _, _, isZero, isSign, -, -⟩ := zeroAndSign_eq_some extracted
  rw [isZero] at aSorted
  rw [isSign] at bSorted
  exact ⟨aSorted.child (by simp [Nodes.toList]), bSorted.child (by simp [Nodes.toList])⟩

theorem wellSorted_factors {node : Node} {fs : Factors} (isMult : node.isKind .mult = true)
    (short : node.children.length ≤ 2) (sorted : node.WellSorted) (extracted : extractExtTuple node = some fs)
    : fs.first.WellSorted ∧ fs.second.WellSorted := by
  obtain ⟨a, b, isNode, cases⟩ := exists_factors isMult short extracted
  rw [isNode] at sorted
  obtain ⟨-, -, children⟩ := wellSorted_mkNode.mp sorted
  have aSorted := children a (by simp)
  have bSorted := children b (by simp)
  rcases cases with zeroFirst | signs | zeroSecond
  · exact wellSorted_zeroAndSign aSorted bSorted zeroFirst
  · obtain ⟨_, _, _, _, isFirst, isSecond, -⟩ := signAndSign_eq_some signs
    rw [isFirst] at aSorted
    rw [isSecond] at bSorted
    exact ⟨aSorted.child (by simp [Nodes.toList]), bSorted.child (by simp [Nodes.toList])⟩
  · exact wellSorted_zeroAndSign bSorted aSorted zeroSecond

theorem wellSorted_addxt (leftSorted : left.WellSorted) (matched : Matched left right ml mr r) : r.addxt.WellSorted := by
  have factors := wellSorted_factors matched.leftMult matched.leftShort leftSorted matched.leftFactors
  rw [matched.roles.addxt]
  split
  · exact factors.1
  · exact factors.2

/-- A sum has the size of its summands. -/
theorem getSize_addxt (leftSorted : left.WellSorted) (matched : Matched left right ml mr r)
    : r.addxt.getSize = r.x.getSize := by
  have sorted := wellSorted_addxt leftSorted matched
  have isSum := matched.roles.isSum
  have summand := matched.roles.summand
  generalize r.addxt = addxt at isSum summand sorted ⊢
  match addxt with
  | .var _ _ | .const _ => cases isSum
  | .apply k nodes =>
      cases beq_iff_eq.mp isSum
      exact (getSize_of_mem (k := .add) rfl sorted summand).symm

/-- Without other children of the concatenations, the comparison is of the products of the terms. -/
theorem holds_slt_products (leftSorted : left.WellSorted) (rightSorted : right.WellSorted)
    (matched : Matched left right ml mr r) (noLow : hasLowChildren left = false) (noLow' : hasLowChildren right = false)
    : (Formula.slt left right).holds V = true ↔ ml.product V < mr.product V := by
  rw [holds_slt_iff, toInt_product V matched.leftMult matched.leftShort leftSorted matched.leftFactors noLow,
    toInt_product V matched.rightMult matched.rightShort rightSorted matched.rightFactors noLow']

/-- A common factor that is extended by zeros instead of its sign. -/
theorem swapped_products {y x a : Vec} (sameWidth : y.width = x.width) (positive : 0 < x.width)
    : ((a.toNat : Int) * y.toInt < a.toNat * x.toInt ↔ y.toNat * a.toInt < x.toNat * a.toInt)
      ↔ a.toNat = 0 ∨ y.toNat = x.toNat ∨ (y.msb = x.msb ↔ a.msb = false) := by
  have ySigned := y.toInt_eq
  have xSigned := x.toInt_eq
  have aSigned := a.toInt_eq
  have yBounds := y.toInt_bounds
  have xBounds := x.toInt_bounds
  have isZero := a.toInt_eq_zero_iff
  have yBelow : (y.toNat : Int) < 2 ^ x.width := by exact_mod_cast sameWidth ▸ y.toNat_lt
  have xBelow : (x.toNat : Int) < 2 ^ x.width := by exact_mod_cast x.toNat_lt
  have aBelow : (a.toNat : Int) < 2 ^ a.width := by exact_mod_cast a.toNat_lt
  have half : (2 : Int) ^ x.width = 2 * 2 ^ (x.width - 1) := by rw [← pow_succ', Nat.sub_add_cancel positive]
  rw [sameWidth] at ySigned yBounds
  rw [half] at ySigned xSigned yBelow xBelow
  rw [mul_comm (a.toNat : Int), mul_comm (a.toNat : Int), mul_lt_mul_iff_signs, mul_lt_mul_iff_signs]
  generalize (2 : Int) ^ (x.width - 1) = p at *
  generalize (2 : Int) ^ a.width = range at *
  cases ySign : y.msb <;> cases xSign : x.msb <;> cases aSign : a.msb <;> rw [ySign] at ySigned <;>
    rw [xSign] at xSigned <;> rw [aSign] at aSigned <;> simp at ySigned xSigned aSigned ⊢ <;> omega

/-- A number as it is extended by its sign. -/
theorem toInt_cases (a : Vec)
    : (a.msb = false ∧ a.toInt = a.toNat) ∨ (a.msb = true ∧ a.toInt < 0 ∧ 0 < a.toNat) := by
  have below : (a.toNat : Int) < 2 ^ a.width := by exact_mod_cast a.toNat_lt
  have signed := a.toInt_eq
  cases sign : a.msb with
  | false => exact Or.inl ⟨rfl, by rw [signed, sign, if_neg Bool.false_ne_true, sub_zero]⟩
  | true =>
      rw [sign, if_pos rfl] at signed
      have isNegative : a.toInt < 0 := by omega
      refine Or.inr ⟨rfl, isNegative, Nat.pos_of_ne_zero fun isZero => ?_⟩
      exact isNegative.ne (a.toInt_eq_zero_iff.mpr isZero)

/-- A product that is at most zero is less than one that is at least zero, unless both are zero. -/
theorem mul_neg_lt_mul_pos {y x b c : Int} (yBound : 0 ≤ y) (xBound : 0 ≤ x) (negative : b < 0) (positive : 0 < c)
    : y * b < c * x ↔ 0 < y ∨ 0 < x := by
  rcases yBound.eq_or_lt with rfl | yPositive
  · rw [zero_mul, mul_pos_iff_of_pos_left positive]
    omega
  · have isLess := mul_neg_of_pos_of_neg yPositive negative
    have isMore := mul_nonneg positive.le xBound
    exact iff_of_true (by omega) (Or.inl yPositive)

/-- The common factor is extended by zeros on the right: a negative `x` makes the right product negative, and a negative
common factor the left one.
-/
theorem mixed_products_right {y x a : Vec} (notBoth : ¬(a.msb = true ∧ x.msb = true))
    : ((y.toNat : Int) * a.toInt < a.toNat * x.toInt ↔ (y.toNat : Int) * a.toInt < x.toNat * a.toInt)
      ↔ match a.msb, x.msb with
        | false, false => True
        | false, true => a.toNat = 0 ∨ x.toNat ≤ y.toNat
        | true, false => x.toNat = 0 ∨ x.toNat < y.toNat
        | true, true => False := by
  rw [mul_lt_mul_iff_signs (y := y.toNat)]
  rcases toInt_cases a with ⟨aSign, aValue⟩ | ⟨aSign, aValue, aPositive⟩ <;>
    rcases toInt_cases x with ⟨xSign, xValue⟩ | ⟨xSign, xValue, xPositive⟩ <;> simp only [aSign, xSign]
  · rw [aValue, xValue, mul_comm (a.toNat : Int), mul_lt_mul_iff_signs]
    exact iff_true_intro Iff.rfl
  · have notLess : ¬(y.toNat : Int) * a.toInt < a.toNat * x.toInt := by
      have isLess : (a.toNat : Int) * x.toInt ≤ 0 := mul_nonpos_of_nonneg_of_nonpos (by omega) xValue.le
      have isMore : 0 ≤ (y.toNat : Int) * a.toInt := mul_nonneg (by omega) (by omega)
      omega
    omega
  · rw [xValue, mul_neg_lt_mul_pos (by omega) (by omega) aValue (by omega)]
    omega
  · exact absurd ⟨aSign, xSign⟩ notBoth

/-- The common factor is extended by zeros on the left: a negative sum makes the left product negative, and a negative
common factor the right one.
-/
theorem mixed_products_left {y x a : Vec} (notBoth : ¬(a.msb = true ∧ y.msb = true))
    : ((a.toNat : Int) * y.toInt < x.toNat * a.toInt ↔ (y.toNat : Int) * a.toInt < x.toNat * a.toInt)
      ↔ match a.msb, y.msb with
        | false, false => True
        | false, true => a.toNat = 0 ∨ y.toNat < x.toNat
        | true, false => y.toNat ≤ x.toNat
        | true, true => False := by
  rw [mul_lt_mul_iff_signs (y := y.toNat)]
  rcases toInt_cases a with ⟨aSign, aValue⟩ | ⟨aSign, aValue, aPositive⟩ <;>
    rcases toInt_cases y with ⟨ySign, yValue⟩ | ⟨ySign, yValue, yPositive⟩ <;> simp only [aSign, ySign]
  · rw [aValue, yValue, mul_comm (a.toNat : Int), mul_lt_mul_iff_signs]
    exact iff_true_intro Iff.rfl
  · have isLess : (a.toNat : Int) * y.toInt < x.toNat * a.toInt ↔ 0 < (a.toNat : Int) := by
      rw [aValue, mul_comm (x.toNat : Int)]
      refine ⟨fun isLess => ?_, fun aPositive => mul_lt_mul_of_pos_left (by omega) aPositive⟩
      by_contra notPositive
      have isZero : (a.toNat : Int) = 0 := by omega
      rw [isZero, zero_mul, zero_mul] at isLess
      exact lt_irrefl 0 isLess
    omega
  · have notLess : ¬(a.toNat : Int) * y.toInt < x.toNat * a.toInt := by
      have isLess : (x.toNat : Int) * a.toInt ≤ 0 := mul_nonpos_of_nonneg_of_nonpos (by omega) aValue.le
      have isMore : 0 ≤ (a.toNat : Int) * y.toInt := mul_nonneg (by omega) (by omega)
      omega
    omega
  · exact absurd ⟨aSign, ySign⟩ notBoth

/-- The products in terms of the roles. -/
theorem product_roles (matched : Matched left right ml mr r)
    : ml.product V = (if r.sumFirst then number ml.is_sext (r.addxt.value V) * (r.a.value V).toInt
        else number ml.is_sext (r.a.value V) * (r.addxt.value V).toInt)
      ∧ mr.product V = if r.xFirst then number ml.is_sext (r.x.value V) * (r.a.value V).toInt
        else number ml.is_sext (r.a.value V) * (r.x.value V).toInt := by
  have roles := matched.roles
  constructor
  · rw [Factors.product, roles.addxt, roles.common]
    cases r.sumFirst <;> rfl
  · rw [Factors.product, ← matched.sameExtension, roles.x, roles.other]
    cases r.xFirst <;> rfl

theorem Roles.Agree.notBothNegative {is_sext : Bool} (agree : r.Agree V is_sext) : ¬r.BothNegative V is_sext := by
  obtain ⟨addxt, x, a, sumFirst, xFirst⟩ := r
  rintro ⟨rfl, mixed, aSign, sign⟩
  unfold Roles.Agree at agree
  cases sumFirst <;> cases xFirst
  · exact mixed rfl
  · simp_all
  · simp_all
  · exact mixed rfl

/-- The roles agree where the products compare as those of the comment on the rule. -/
theorem agree_iff (leftSorted : left.WellSorted) (matched : Matched left right ml mr r)
    (notBoth : ¬r.BothNegative V ml.is_sext)
    : r.Agree V ml.is_sext
      ↔ ((ml.product V < mr.product V)
          ↔ number ml.is_sext (r.addxt.value V) * (r.a.value V).toInt
            < number ml.is_sext (r.x.value V) * (r.a.value V).toInt) := by
  have sameSize := getSize_addxt leftSorted matched
  have sameWidth : (r.addxt.value V).width = (r.x.value V).width := by rw [Node.width_value, Node.width_value, sameSize]
  obtain ⟨leftProduct, rightProduct⟩ := product_roles V matched
  rw [leftProduct, rightProduct]
  unfold Roles.Agree
  unfold Roles.BothNegative at notBoth
  revert notBoth
  cases ml.is_sext with
  | true =>
      have first (b : Bool) (k z : Int) : (if b then k * z else z * k) = k * z := by
        cases b
        · exact mul_comm z k
        · rfl
      intro _
      simp only [number, if_true, first]
  | false =>
      cases r.sumFirst <;> cases r.xFirst <;> intro notBoth <;> simp only [number, if_true, Bool.false_eq_true, if_false]
      · have positive : 0 < (r.x.value V).width := by
          rw [← sameWidth, Node.width_value]
          exact (wellSorted_addxt leftSorted matched).positive
        exact (swapped_products sameWidth positive).symm
      · exact (mixed_products_left fun signs => notBoth ⟨rfl, Bool.false_ne_true, signs⟩).symm
      · exact (mixed_products_right fun signs => notBoth ⟨rfl, Bool.false_ne_true.symm, signs⟩).symm

end Exactness

/-- On a match without other children of the concatenations, the result has the truth value of the comparison where the
roles agree, and only there unless the common factor is extended in two ways and both signs are set.
-/
theorem multSltMult_exact (V : Valuation) {left right : Node} {ml mr : Factors} {r : Roles}
    (sorted : (Formula.slt left right).WellSorted) (isMatch : matchProducts left right = some (ml, mr, r))
    (noLow : hasLowChildren left = false) (noLow' : hasLowChildren right = false)
    : (r.Agree V ml.is_sext → (apply (.slt left right)).holds V = (Formula.slt left right).holds V)
      ∧ (¬r.BothNegative V ml.is_sext
        → (apply (.slt left right)).holds V = (Formula.slt left right).holds V → r.Agree V ml.is_sext) := by
  have matched := matchProducts_eq_some isMatch
  have exact_iff (notBoth : ¬r.BothNegative V ml.is_sext)
      : (apply (.slt left right)).holds V = (Formula.slt left right).holds V ↔ r.Agree V ml.is_sext := by
    rw [apply_eq matched, Bool.eq_iff_iff, holds_result V ml.is_sext (getSize_addxt sorted.1 matched),
      holds_slt_products V sorted.1 sorted.2.1 matched noLow noLow', agree_iff V sorted.1 matched notBoth]
    exact Iff.comm
  exact ⟨fun agree => (exact_iff (agree.notBothNegative V)).mpr agree, fun notBoth => (exact_iff notBoth).mp⟩

/-- Two-bit variables extended to four bits, where the variable with the given number is extended by zeros. -/
def exampleFactor (zeroExtended : Bool) (n : Node) : Node :=
  if zeroExtended then mkNode .concat [mkZero 2, n] else mkSignExtend n 2

def exampleSum : Node := mkNode .add [.var 2 0, .var 2 1]

/-- The comparison of the comment on the rule. -/
theorem multSltMult_exact_two_bits
    : (apply (.slt (mkNode .mult [exampleFactor true exampleSum, exampleFactor false (.var 2 2)])
          (mkNode .mult [exampleFactor true (.var 2 0), exampleFactor false (.var 2 2)]))).holds
        (fun n _ => BitVec.ofNat n 1)
      = (Formula.slt (mkNode .mult [exampleFactor true exampleSum, exampleFactor false (.var 2 2)])
          (mkNode .mult [exampleFactor true (.var 2 0), exampleFactor false (.var 2 2)])).holds
        (fun n _ => BitVec.ofNat n 1) :=
  (multSltMult_exact (fun n _ => BitVec.ofNat n 1) (by decide)
    (show _ = some (⟨exampleSum, .var 2 2, false⟩, ⟨.var 2 0, .var 2 2, false⟩,
        ⟨exampleSum, .var 2 0, .var 2 2, true, true⟩) by decide) (by decide) (by decide)).1 trivial

/-- The common factor is extended by zeros and is one, as are both summands: their signed sum is smaller than each. -/
theorem zero_extended_common_factor
    : (Formula.slt (mkNode .mult [exampleFactor true (.var 2 2), exampleFactor false exampleSum])
        (mkNode .mult [exampleFactor true (.var 2 2), exampleFactor false (.var 2 0)])).WellSorted
      ∧ applies (.slt (mkNode .mult [exampleFactor true (.var 2 2), exampleFactor false exampleSum])
          (mkNode .mult [exampleFactor true (.var 2 2), exampleFactor false (.var 2 0)])) = true
      ∧ (Formula.slt (mkNode .mult [exampleFactor true (.var 2 2), exampleFactor false exampleSum])
          (mkNode .mult [exampleFactor true (.var 2 2), exampleFactor false (.var 2 0)])).holds
          (fun n _ => BitVec.ofNat n 1) = true
      ∧ (apply (.slt (mkNode .mult [exampleFactor true (.var 2 2), exampleFactor false exampleSum])
          (mkNode .mult [exampleFactor true (.var 2 2), exampleFactor false (.var 2 0)]))).holds
          (fun n _ => BitVec.ofNat n 1) = false := by
  decide

/-- Both sums are zero, and the third children decide the comparison. -/
example :
    let product := fun low high => mkNode .mult [mkNode .concat [mkZero 1, high, .var 1 low], mkSignExtend (.var 1 2) 2]
    let f := Formula.slt (product 3 (mkNode .add [.var 1 0, .var 1 1])) (product 4 (.var 1 0))
    let V : Valuation := fun n name => BitVec.ofNat n (if name = 2 ∨ name = 3 then 1 else 0)
    applies f = true ∧ f.holds V = true ∧ (apply f).holds V = false := by
  decide

end MultSltMult

end Ava6.Bv.Rewriter
