import Mathlib.SetTheory.Cardinal.Order
import Ava6.Arith.Rewriter.AtomValues
import Ava6.Arith.OperatorElim

/-! Conversions between bit-vectors and integers: they are eliminated bit by bit, and an inequality between a converted
bit-vector and a constant becomes one between bit-vectors, with tests for constants that are out of range.
-/

namespace Ava6.Arith.Rewriter

open Library OperatorElim

def mkConcat (nodes : List Node) : Node :=
  mkNode (.bvConcat (nodes.map (fun n => n.getType.getBitVectorSize))) nodes

/-- The loop over the bits from `bit` on, with the power `i` of the bit. -/
def bv2NatChildren (b : Node) : Nat → Nat → Int → List Node
  | 0, _, _ => []
  | left + 1, bit, i =>
      let cond := mkNode .equal [mkNode (.bvExtract bit bit) [b], .constBitVector 1 1]
      mkNode .ite [cond, .constInteger i, .constInteger 0] :: bv2NatChildren b left (bit + 1) (i * 2)

def eliminateBv2Nat : Node → Node
  | .apply .ubvToInt (.cons b .nil) =>
      match bv2NatChildren b b.getType.getBitVectorSize 0 1 with
      | [child] => child
      | children => mkNode .add children
  | node => node

/-- The loop that makes the bits, the least first, with the power `i` above the bit. -/
def int2BvBits (n : Node) : Nat → Int → List Node
  | 0, _ => []
  | left + 1, i =>
      let cond := mkNode .geq [mkNode .intsModulusTotal [n, .constInteger i], .constInteger (i / 2)]
      mkNode .ite [cond, .constBitVector 1 1, .constBitVector 1 0] :: int2BvBits n left (i * 2)

def eliminateInt2Bv : Node → Node
  | .apply (.intToBv size) (.cons n .nil) =>
      match int2BvBits n size 2 with
      | [bit] => bit
      | bits => mkConcat bits.reverse
  | node => node

/-- The loop over the summands. It finds the conversion, if it is in the sum once with coefficient one or minus one, and
the constant, and fails if there is anything else. -/
def findBv2Nat : List (Monomial × Rat) → Option (Node × Bool) → List Node → Option (Option (Node × Bool) × List Node)
  | [], bv2natTerm, otherSum => some (bv2natTerm, otherSum)
  | m :: rest, bv2natTerm, otherSum =>
      if m.1.node.getKind = .ubvToInt then
        match bv2natTerm with
        | none => if |m.2| = 1 then findBv2Nat rest (some (m.1.node, decide (0 < m.2))) otherSum else none
        | some _ => none
      else if m.1.node.getKind = .constInteger ∧ m.2.den = 1 then
        findBv2Nat rest bv2natTerm (otherSum ++ [.constInteger m.2.num])
      else none

/-- The comparison of bit-vectors. -/
def bvKind (kind : Kind) (bv2natPol : Bool) : Kind :=
  if kind = .gt then (if bv2natPol then .bvUgt else .bvUlt) else (if bv2natPol then .bvUge else .bvUle)

/-- The sum of the constants. -/
def mkOtherSum : List Node → Node
  | [] => .constInteger 0
  | [n] => n
  | nodes => mkNode .add nodes

def negateSum : Node → Node
  | .apply .neg (.cons n .nil) => n
  | osum => mkNode .neg [osum]

section Inequalities

variable [LinearOrder Node]

/-- `sum kind 0` as a comparison of bit-vectors, or the inequality itself. -/
def rewriteSumToBv (kind : Kind) (sum : Sum) (ineq : Node) : Node :=
  match findBv2Nat sum.entries none [] with
  | some (some (.apply .ubvToInt (.cons bvt .nil), bv2natPol), otherSum) =>
      let zero := Node.constInteger 0
      let bvsize := bvt.getType.getBitVectorSize
      let osum := mkOtherSum otherSum
      let o := if bv2natPol then negateSum osum else osum
      mkNode .ite [mkNode .geq [o, .constInteger (2 ^ bvsize)], .constBoolean (!bv2natPol),
        mkNode .ite [mkNode .lt [o, zero], .constBoolean bv2natPol,
          mkNode (bvKind kind bv2natPol) [bvt, mkNode (.intToBv bvsize) [o]]]]
  | _ => ineq

def rewriteIneqToBv : Node → Node
  | .apply .geq (.cons first (.cons second .nil)) =>
      let sum := addToSum (addToSum .empty false (removeToReal first)) true (removeToReal second)
      rewriteSumToBv .geq sum (.apply .geq (.cons first (.cons second .nil)))
  | ineq => ineq

end Inequalities

/-- A remainder by a product, in two steps. -/
theorem emod_mul_eq (z : Int) {a : Int} (nonneg : 0 ≤ a) (b : Int) : z % (a * b) = z % a + a * (z / a % b) := by
  rw [Int.emod_def z (a * b), ← Int.ediv_ediv_of_nonneg nonneg, Int.emod_def z a, Int.emod_def (z / a) b]
  ring

section Bits

variable (z : Int) (k : Nat)

/-- A remainder is the next bit in front of the remainder below. -/
theorem emod_pow_succ : z % 2 ^ (k + 1) = z % 2 ^ k + 2 ^ k * (z / 2 ^ k % 2) := by
  rw [pow_succ, emod_mul_eq z (by positivity)]

/-- A bit is set where the remainder above reaches its power. -/
theorem pow_le_emod_iff : 2 ^ k ≤ z % 2 ^ (k + 1) ↔ z / 2 ^ k % 2 = 1 := by
  have positive : (0 : Int) < 2 ^ k := by positivity
  have nonneg := Int.emod_nonneg z positive.ne'
  have below := Int.emod_lt_of_pos z positive
  rw [emod_pow_succ]
  rcases Int.emod_two_eq_zero_or_one (z / 2 ^ k) with isZero | isOne
  · rw [isZero]
    constructor
    · intro atLeast
      omega
    · intro isOne
      cases isOne
  · rw [isOne]
    constructor
    · exact fun _ => rfl
    · intro _
      omega

end Bits

-- Values of the eliminated conversions

section Values

variable (I : Interpretation) {n : Node} {z : Int}

theorem value_bit_ite {condition first second : Node} {p : Prop} (meaning : I.Satisfies condition ↔ p) {x y : ℝ}
    (isFirst : first.value I = x) (isSecond : second.value I = y) [Decidable p]
    : (mkNode .ite [condition, first, second]).value I = if p then x else y := by
  classical
  rw [value_ite, isFirst, isSecond]
  exact if_congr meaning rfl rfl

theorem value_bv2Nat_child (isValue : n.value I = z) (bit : Nat)
    : (mkNode .ite [mkNode .equal [mkNode (.bvExtract bit bit) [n], .constBitVector 1 1], .constInteger (2 ^ bit),
        .constInteger 0]).value I = ((2 ^ bit * (z / 2 ^ bit % 2) : Int) : ℝ) := by
  have isBit : (mkNode (.bvExtract bit bit) [n]).value I = ((z / 2 ^ bit % 2 : Int) : ℝ) := by
    rw [value_mkNode, List.map_cons, isValue]
    change ((⌊(z : ℝ)⌋ / 2 ^ bit % 2 ^ (bit + 1 - bit) : Int) : ℝ) = _
    rw [Int.floor_intCast, Nat.add_sub_cancel_left, pow_one]
  have isOne : (Node.constBitVector 1 1).value I = ((1 : Int) : ℝ) := by
    rw [Node.value]
    norm_num
  have meaning : I.Satisfies (mkNode .equal [mkNode (.bvExtract bit bit) [n], .constBitVector 1 1])
      ↔ z / 2 ^ bit % 2 = 1 := by
    rw [@satisfies_relation I .equal _ _ rfl, isBit, isOne]
    exact Int.cast_inj
  rw [value_bit_ite I meaning rfl rfl]
  rcases Int.emod_two_eq_zero_or_one (z / 2 ^ bit) with isZero | isSet
  · simp [isZero, Node.value]
  · simp [isSet, Node.value]

/-- The bits from one on have the number that is between the remainders. -/
theorem sum_bv2NatChildren (isValue : n.value I = z) (left bit : Nat)
    : ((bv2NatChildren n left bit (2 ^ bit)).map (Node.value I)).sum
      = ((z % 2 ^ (bit + left) - z % 2 ^ bit : Int) : ℝ) := by
  induction left generalizing bit with
  | zero => simp [bv2NatChildren]
  | succ left ih =>
      rw [bv2NatChildren, List.map_cons, List.sum_cons, value_bv2Nat_child I isValue, ← pow_succ, ih, ← Int.cast_add,
        Int.cast_inj, emod_pow_succ z bit, show bit + 1 + left = bit + (left + 1) by omega]
      ring

/-- The weighted sum of the bits is the number of a bit-vector. -/
theorem value_eliminateBv2Nat {w : Nat} (isBitVector : n.getType = .bitVector w) {b : BitVec w}
    (isValue : n.value I = b.toNat)
    : (eliminateBv2Nat (mkNode .ubvToInt [n])).value I = b.toNat := by
  have isNumber : n.value I = ((b.toNat : Int) : ℝ) := by rw [isValue, Int.cast_natCast]
  have total := sum_bv2NatChildren I isNumber w 0
  have inRange : (b.toNat : Int) % 2 ^ w = b.toNat :=
    Int.emod_eq_of_lt (Int.natCast_nonneg _) (by exact_mod_cast b.isLt)
  rw [pow_zero, Nat.zero_add, inRange, Int.emod_one, sub_zero, Int.cast_natCast] at total
  change (match bv2NatChildren n n.getType.getBitVectorSize 0 1 with
    | [child] => child
    | children => mkNode .add children).value I = _
  rw [isBitVector]
  change (match bv2NatChildren n w 0 1 with
    | [child] => child
    | children => mkNode .add children).value I = _
  generalize bv2NatChildren n w 0 1 = children at total
  match children with
  | [child] => simpa using total
  | [] => exact (value_mkNode ..).trans total
  | _ :: _ :: _ => exact (value_mkNode ..).trans total

/-- The comparison of a remainder is the bit at a position. -/
theorem value_int2Bv_bit (isValue : n.value I = z) (k : Nat)
    : (mkNode .ite [mkNode .geq [mkNode .intsModulusTotal [n, .constInteger (2 ^ (k + 1))],
        .constInteger (2 ^ (k + 1) / 2)], .constBitVector 1 1, .constBitVector 1 0]).value I
      = ((z / 2 ^ k % 2 : Int) : ℝ) := by
  have half : (2 : Int) ^ (k + 1) / 2 = 2 ^ k := by rw [pow_succ, Int.mul_ediv_cancel _ two_ne_zero]
  have isModulus : (mkNode .intsModulusTotal [n, .constInteger (2 ^ (k + 1))]).value I
      = ((z % 2 ^ (k + 1) : Int) : ℝ) := by
    rw [value_mkNode, List.map_cons, List.map_cons, isValue]
    change ((⌊(z : ℝ)⌋ % ⌊((2 ^ (k + 1) : Int) : ℝ)⌋ : Int) : ℝ) = _
    rw [Int.floor_intCast, Int.floor_intCast]
  have meaning : I.Satisfies (mkNode .geq [mkNode .intsModulusTotal [n, .constInteger (2 ^ (k + 1))],
      .constInteger (2 ^ (k + 1) / 2)]) ↔ z / 2 ^ k % 2 = 1 := by
    rw [@satisfies_relation I .geq _ _ rfl, isModulus, Node.value, half, ← pow_le_emod_iff]
    exact Int.cast_le
  rw [value_bit_ite I meaning rfl rfl]
  rcases Int.emod_two_eq_zero_or_one (z / 2 ^ k) with isZero | isSet
  · simp [isZero, Node.value]
  · simp [isSet, Node.value]

/-- The last part of a concatenation. -/
theorem concatenate_concat (widths : List Nat) (values : List ℝ) (sameLength : widths.length = values.length) (w : Nat)
    (x : ℝ) (front : Int)
    : concatenate (widths ++ [w]) (values ++ [x]) front = concatenate widths values front * 2 ^ w + ⌊x⌋ % 2 ^ w := by
  induction widths generalizing values front with
  | nil =>
      obtain rfl := List.length_eq_zero_iff.mp sameLength.symm
      rfl
  | cons width widths ih =>
      match values with
      | [] => cases sameLength
      | value :: values => exact ih values (Nat.succ.inj sameLength) _

theorem length_int2BvBits (n : Node) (left : Nat) (i : Int) : (int2BvBits n left i).length = left := by
  induction left generalizing i with
  | zero => rfl
  | succ left ih => rw [int2BvBits, List.length_cons, ih]

theorem widths_int2BvBits (n : Node) (left : Nat) (i : Int)
    : (int2BvBits n left i).map (fun bit => bit.getType.getBitVectorSize) = List.replicate left 1 := by
  induction left generalizing i with
  | zero => rfl
  | succ left ih =>
      rw [int2BvBits, List.map_cons, ih]
      rfl

/-- The bits from one on, the last in front. -/
theorem concatenate_int2BvBits (isValue : n.value I = z) (left k : Nat) (front : Int)
    : concatenate (List.replicate left 1) ((int2BvBits n left (2 ^ (k + 1))).reverse.map (Node.value I)) front
      = front * 2 ^ left + z / 2 ^ k % 2 ^ left := by
  induction left generalizing k front with
  | zero => simp [int2BvBits, concatenate]
  | succ left ih =>
      have sameLength : (List.replicate left 1).length
          = ((int2BvBits n left (2 ^ (k + 1 + 1))).reverse.map (Node.value I)).length := by
        simp [length_int2BvBits]
      have bitBelow : z / 2 ^ k % 2 % 2 ^ 1 = z / 2 ^ k % 2 := by rw [pow_one, Int.emod_emod]
      have next : z / 2 ^ (k + 1) = z / 2 ^ k / 2 := by
        rw [pow_succ, Int.ediv_ediv_of_nonneg (by positivity)]
      rw [int2BvBits, List.reverse_cons, List.map_append, List.map_cons, List.map_nil, List.replicate_succ',
        ← pow_succ, concatenate_concat _ _ sameLength, ih, value_int2Bv_bit I isValue, Int.floor_intCast, bitBelow, next,
        pow_succ 2 left, mul_comm (2 ^ left : Int) 2, emod_mul_eq _ (by decide)]
      ring

/-- The concatenation of the bits is the number modulo two to the width. -/
theorem value_eliminateInt2Bv (isValue : n.value I = z) (w : Nat)
    : (eliminateInt2Bv (mkNode (.intToBv w) [n])).value I = ((z % 2 ^ w : Int) : ℝ) := by
  have total := concatenate_int2BvBits I isValue w 0 0
  rw [Nat.zero_add, pow_one, zero_mul, zero_add, pow_zero, Int.ediv_one] at total
  have concatenated : (mkConcat (int2BvBits n w 2).reverse).value I = ((z % 2 ^ w : Int) : ℝ) := by
    rw [mkConcat, List.map_reverse, widths_int2BvBits, List.reverse_replicate, value_mkNode]
    exact congrArg Int.cast total
  change (match int2BvBits n w 2 with
    | [bit] => bit
    | bits => mkConcat bits.reverse).value I = _
  have single (bit : Node) (isSingle : int2BvBits n w 2 = [bit]) : bit.value I = ((z % 2 ^ w : Int) : ℝ) := by
    have isOne : w = 1 := by rw [← length_int2BvBits n w 2, isSingle, List.length_singleton]
    subst isOne
    rw [← List.singleton_inj.mp isSingle]
    have bitValue := value_int2Bv_bit I isValue 0
    rw [Nat.zero_add, pow_zero, Int.ediv_one, pow_one] at bitValue
    rw [bitValue, pow_one]
  split
  · next bit isSingle => exact single bit isSingle
  · exact concatenated

end Values

-- The summands

section Summands

/-- A monomial of an arithmetic term: its factors are well-typed and not constant. -/
def TypedKey (m : Monomial) : Prop :=
  ∃ factors : List Node, (∀ n ∈ factors, n.getConst = none ∧ n.wellTyped = true) ∧ m.node = mkNonlinearMult factors

mutual

theorem typed_addToProduct {product : List Node × Rat}
    (typed : ∀ n ∈ product.1, n.getConst = none ∧ n.wellTyped = true) (n : Node) (isTyped : n.wellTyped = true)
    : ∀ factor ∈ (addToProduct product n).1, factor.getConst = none ∧ factor.wellTyped = true := by
  have append (n : Node) (notConst : n.getConst = none) (isTyped : n.wellTyped = true)
      : ∀ factor ∈ product.1 ++ [n], factor.getConst = none ∧ factor.wellTyped = true := by
    intro factor member
    rcases List.mem_append.mp member with old | new
    · exact typed factor old
    · rw [List.mem_singleton.mp new]
      exact ⟨notConst, isTyped⟩
  match n with
  | .constInteger _ => exact typed
  | .constRational _ => exact typed
  | .var _ _ => exact append _ rfl isTyped
  | .term _ _ => exact append _ rfl isTyped
  | .constBoolean _ => exact append _ rfl isTyped
  | .constBitVector _ _ => exact append _ rfl isTyped
  | .apply k children =>
      rw [addToProduct]
      split
      · exact typed_addAllToProduct typed children (Bool.and_eq_true_iff.mp isTyped).2
      · exact append _ rfl isTyped

theorem typed_addAllToProduct {product : List Node × Rat}
    (typed : ∀ n ∈ product.1, n.getConst = none ∧ n.wellTyped = true) (children : Nodes)
    (areTyped : children.wellTyped = true)
    : ∀ factor ∈ (addAllToProduct product children).1, factor.getConst = none ∧ factor.wellTyped = true := by
  match children with
  | .nil => exact typed
  | .cons head tail =>
      obtain ⟨headTyped, tailTyped⟩ := Bool.and_eq_true_iff.mp areTyped
      rw [addAllToProduct]
      exact typed_addAllToProduct (typed_addToProduct typed head headTyped) tail tailTyped

end

variable [LinearOrder Node]

def TypedKeys (sum : Sum) : Prop := ∀ key, sum.coefficient key ≠ 0 → TypedKey key

theorem TypedKeys.addToProduct {sum : Sum} (typed : TypedKeys sum) (negate : Bool) {n : Node}
    (isTyped : n.wellTyped = true)
    : TypedKeys (addProductToSum sum (addToProduct ([], sign negate) n)) := by
  intro key nonzero
  rw [addProductToSum, LinearForm.coefficient_addMonomial] at nonzero
  split at nonzero
  · next isKey => exact ⟨_, typed_addToProduct (List.forall_mem_nil _) n isTyped, congrArg Monomial.node isKey⟩
  · rw [add_zero] at nonzero
    exact typed key nonzero

mutual

theorem TypedKeys.addToSum {sum : Sum} (typed : TypedKeys sum) (negate : Bool) (n : Node) (isTyped : n.wellTyped = true)
    : TypedKeys (addToSum sum negate n) := by
  match n with
  | .apply k children =>
      rw [Rewriter.addToSum]
      split
      · exact TypedKeys.addAllToSum typed negate children (Bool.and_eq_true_iff.mp isTyped).2
      · exact typed.addToProduct negate isTyped
  | .var _ _ | .term _ _ | .constBoolean _ | .constBitVector _ _ | .constInteger _ | .constRational _ =>
      rw [Rewriter.addToSum]
      exact typed.addToProduct negate isTyped

theorem TypedKeys.addAllToSum {sum : Sum} (typed : TypedKeys sum) (negate : Bool) (children : Nodes)
    (areTyped : children.wellTyped = true)
    : TypedKeys (addAllToSum sum negate children) := by
  match children with
  | .nil => exact typed
  | .cons head tail =>
      obtain ⟨headTyped, tailTyped⟩ := Bool.and_eq_true_iff.mp areTyped
      rw [Rewriter.addAllToSum]
      exact TypedKeys.addAllToSum (TypedKeys.addToSum typed negate head headTyped) negate tail tailTyped

end

theorem TypedKey.of_mem {sum : Sum} (typed : TypedKeys sum) {m : Monomial × Rat} (member : m ∈ sum.entries)
    : TypedKey m.1 := by
  obtain ⟨isCoefficient, nonzero⟩ := LinearForm.mem_entries.mp member
  exact typed m.1 (isCoefficient ▸ nonzero)

variable {m : Monomial}

omit [LinearOrder Node] in
theorem TypedKey.eq_one (typed : TypedKey m) (isConst : m.node.getKind = .constInteger) : m.node = .constInteger 1 := by
  obtain ⟨factors, factorsTyped, isProduct⟩ := typed
  match factors with
  | [] => exact isProduct
  | [n] =>
      have notConst := (factorsTyped n List.mem_cons_self).1
      rw [show m.node = n from isProduct] at isConst
      match n with
      | .constInteger _ => cases notConst
      | .apply k children =>
          obtain rfl : k = .constInteger := isConst
          have typed := (factorsTyped _ List.mem_cons_self).2
          cases typed
  | first :: second :: rest =>
      rw [isProduct] at isConst
      cases isConst

omit [LinearOrder Node] in
theorem accepts_ubvToInt {types : List TypeNode} (accepted : Kind.ubvToInt.accepts types = true)
    : ∃ w, types = [.bitVector w] := by
  match types with
  | [] => cases accepted
  | [type] =>
      cases type with
      | bitVector w => exact ⟨w, rfl⟩
      | bool | int | real => cases accepted
  | type :: _ :: _ => cases type <;> cases accepted

omit [LinearOrder Node] in
/-- Conversions are of bit-vectors. -/
theorem TypedKey.of_ubvToInt (typed : TypedKey m) (isConversion : m.node.getKind = .ubvToInt)
    : ∃ bvt w, m.node = mkNode .ubvToInt [bvt] ∧ bvt.getType = .bitVector w := by
  obtain ⟨factors, factorsTyped, isProduct⟩ := typed
  match factors with
  | [] =>
      rw [isProduct] at isConversion
      cases isConversion
  | [n] =>
      have nTyped := (factorsTyped n List.mem_cons_self).2
      rw [show m.node = n from isProduct] at isConversion ⊢
      match n with
      | .apply k children =>
          obtain rfl : k = .ubvToInt := isConversion
          have accepted := (Bool.and_eq_true_iff.mp nTyped).1
          obtain ⟨w, isType⟩ := accepts_ubvToInt accepted
          match children with
          | .nil => cases isType
          | .cons bvt .nil => exact ⟨bvt, w, rfl, (List.cons.inj isType).1⟩
          | .cons _ (.cons _ _) => cases (List.cons.inj isType).2
  | first :: second :: rest =>
      rw [isProduct] at isConversion
      cases isConversion

end Summands

-- The values of the summands

section Found

variable (I : Interpretation) {entries : List (Monomial × Rat)} {term found : Option (Node × Bool)}
  {otherSum others : List Node}

/-- What the conversion that was found adds. -/
noncomputable def termValue : Option (Node × Bool) → ℝ
  | none => 0
  | some (n, bv2natPol) => if bv2natPol then n.value I else -n.value I

/-- The conversion and the constants are all of the sum. -/
theorem findBv2Nat_spec (typed : ∀ m ∈ entries, TypedKey m.1)
    (isFound : findBv2Nat entries term otherSum = some (found, others))
    : termValue I found + (others.map (Node.value I)).sum
      = termValue I term + (otherSum.map (Node.value I)).sum
        + (entries.map (fun m => (m.2 : ℝ) * m.1.node.value I)).sum := by
  induction entries generalizing term otherSum with
  | nil =>
      obtain ⟨rfl, rfl⟩ := Prod.mk.inj (Option.some.inj isFound)
      simp
  | cons m rest ih =>
      obtain ⟨mTyped, restTyped⟩ := List.forall_mem_cons.mp typed
      unfold findBv2Nat at isFound
      rw [List.map_cons, List.sum_cons]
      split at isFound
      · split at isFound
        · split at isFound
          · next isUnit =>
              rw [ih restTyped isFound]
              have contribution : termValue I (some (m.1.node, decide (0 < m.2))) = m.2 * m.1.node.value I := by
                rcases (abs_eq zero_le_one).mp isUnit with isOne | isMinus
                · simp [termValue, isOne]
                · simp [termValue, isMinus]
              rw [contribution]
              simp only [termValue]
              ring
          · cases isFound
        · cases isFound
      · split at isFound
        · next isConstant =>
            have isOne := mTyped.eq_one isConstant.1
            have isCoefficient : (m.2 : ℝ) = m.2.num := by
              nth_rewrite 1 [← Rat.coe_int_num_of_den_eq_one isConstant.2]
              rw [Rat.cast_intCast]
            rw [ih restTyped isFound, List.map_append, List.sum_append, isOne, isCoefficient]
            simp only [List.map_cons, List.map_nil, List.sum_cons, List.sum_nil, Node.value, Int.cast_one]
            ring
        · cases isFound

theorem findBv2Nat_integers (integers : ∀ n ∈ otherSum, IsInteger (n.value I))
    (isFound : findBv2Nat entries term otherSum = some (found, others))
    : ∀ n ∈ others, IsInteger (n.value I) := by
  induction entries generalizing term otherSum with
  | nil =>
      obtain ⟨-, rfl⟩ := Prod.mk.inj (Option.some.inj isFound)
      exact integers
  | cons m rest ih =>
      unfold findBv2Nat at isFound
      split at isFound
      · split at isFound
        · split at isFound
          · exact ih integers isFound
          · cases isFound
        · cases isFound
      · split at isFound
        · refine ih (fun n member => ?_) isFound
          rcases List.mem_append.mp member with old | new
          · exact integers n old
          · rw [List.mem_singleton.mp new]
            exact .of_int _
        · cases isFound

/-- The conversion is one of the monomials. -/
theorem findBv2Nat_mem {n : Node} {bv2natPol : Bool}
    (isFound : findBv2Nat entries term otherSum = some (some (n, bv2natPol), others))
    : term = some (n, bv2natPol) ∨ ∃ m ∈ entries, m.1.node = n ∧ n.getKind = .ubvToInt := by
  induction entries generalizing term otherSum with
  | nil =>
      obtain ⟨same, -⟩ := Prod.mk.inj (Option.some.inj isFound)
      exact Or.inl same
  | cons m rest ih =>
      unfold findBv2Nat at isFound
      split at isFound
      · next isConversion =>
          split at isFound
          · split at isFound
            · rcases ih isFound with same | ⟨m', member, isNode, kind⟩
              · obtain ⟨isNode, -⟩ := Prod.mk.inj (Option.some.inj same)
                exact Or.inr ⟨m, List.mem_cons_self, isNode, isNode ▸ isConversion⟩
              · exact Or.inr ⟨m', List.mem_cons_of_mem m member, isNode, kind⟩
            · cases isFound
          · cases isFound
      · split at isFound
        · rcases ih isFound with same | ⟨m', member, isNode, kind⟩
          · exact Or.inl same
          · exact Or.inr ⟨m', List.mem_cons_of_mem m member, isNode, kind⟩
        · cases isFound

end Found

-- The rewritten inequality

section Rewritten

variable (I : Interpretation) {kind : Kind} {bvt o : Node} {w : Nat} {b : BitVec w} {z : Int}

theorem value_negateSum (n : Node) : (negateSum n).value I = -n.value I := by
  unfold negateSum
  split
  · next inner =>
      have isNeg : (Node.apply .neg (.cons inner .nil)).value I = -inner.value I := value_mkNode I .neg [inner]
      rw [isNeg, neg_neg]
  · exact value_mkNode ..

theorem value_mkOtherSum (nodes : List Node) : (mkOtherSum nodes).value I = (nodes.map (Node.value I)).sum := by
  match nodes with
  | [] => simp [mkOtherSum, Node.value]
  | [n] => simp [mkOtherSum]
  | _ :: _ :: _ => exact value_mkNode ..

/-- The comparison of a bit-vector with a constant in range. -/
theorem value_bvKind (isInequality : kind = .geq ∨ kind = .gt) (isBv : bvt.value I = b.toNat) (isO : o.value I = z)
    (nonneg : 0 ≤ z) (below : z < 2 ^ w) (bv2natPol : Bool)
    : (mkNode (bvKind kind bv2natPol) [bvt, mkNode (.intToBv w) [o]]).value I
      = truth (kind.relates (if bv2natPol then (b.toNat - z : ℝ) else z - b.toNat) 0) := by
  have converted : (mkNode (.intToBv w) [o]).value I = z := by
    rw [value_mkNode, List.map_cons, isO]
    change ((⌊(z : ℝ)⌋ % 2 ^ w : Int) : ℝ) = z
    rw [Int.floor_intCast, Int.emod_eq_of_lt nonneg below]
  rw [value_mkNode, List.map_cons, List.map_cons, List.map_nil, isBv, converted]
  rcases isInequality with rfl | rfl
  · cases bv2natPol with
    | true => exact truth_congr sub_nonneg.symm
    | false => exact truth_congr sub_nonneg.symm
  · cases bv2natPol with
    | true => exact truth_congr sub_pos.symm
    | false => exact truth_congr sub_pos.symm

/-- The tests for constants out of range. -/
theorem value_guarded (isInequality : kind = .geq ∨ kind = .gt) (isBv : bvt.value I = b.toNat) (isO : o.value I = z)
    (bv2natPol : Bool)
    : (mkNode .ite [mkNode .geq [o, .constInteger (2 ^ w)], .constBoolean (!bv2natPol),
        mkNode .ite [mkNode .lt [o, .constInteger 0], .constBoolean bv2natPol,
          mkNode (bvKind kind bv2natPol) [bvt, mkNode (.intToBv w) [o]]]]).value I
      = truth (kind.relates (if bv2natPol then (b.toNat - z : ℝ) else z - b.toNat) 0) := by
  have bNonneg : (0 : ℝ) ≤ b.toNat := Nat.cast_nonneg _
  have bBelow : (b.toNat : ℝ) < 2 ^ w := by exact_mod_cast b.isLt
  have isHigh : I.Satisfies (mkNode .geq [o, .constInteger (2 ^ w)]) ↔ 2 ^ w ≤ z := by
    rw [@satisfies_relation I .geq _ _ rfl, isO, Node.value]
    exact Int.cast_le
  have isLow : I.Satisfies (mkNode .lt [o, .constInteger 0]) ↔ z < 0 := by
    rw [@satisfies_relation I .lt _ _ rfl, isO, Node.value]
    exact Int.cast_lt
  rw [value_bit_ite I isHigh rfl (value_bit_ite I isLow rfl rfl)]
  split
  · next high =>
      have zHigh : (2 : ℝ) ^ w ≤ z := by exact_mod_cast high
      refine value_constBoolean I ?_
      rcases isInequality with rfl | rfl <;> cases bv2natPol <;> simp [Kind.relates] <;> linarith
  · next notHigh =>
      split
      · next low =>
          have zLow : (z : ℝ) < 0 := by exact_mod_cast low
          refine value_constBoolean I ?_
          rcases isInequality with rfl | rfl <;> cases bv2natPol <;> simp [Kind.relates] <;> linarith
      · next notLow => exact value_bvKind I isInequality isBv isO (not_lt.mp notLow) (not_le.mp notHigh) bv2natPol

variable [LinearOrder Node]

/-- The comparison is equivalent to that of the sum with zero. -/
theorem value_rewriteSumToBv (isInequality : kind = .geq ∨ kind = .gt) {sum : Sum} (typed : TypedKeys sum) {ineq : Node}
    (same : ineq.value I = truth (kind.relates (sumValue I sum) 0))
    : (rewriteSumToBv kind sum ineq).value I = truth (kind.relates (sumValue I sum) 0) := by
  unfold rewriteSumToBv
  split
  · next bvt bv2natPol otherSum isFound =>
      have typedEntries : ∀ m ∈ sum.entries, TypedKey m.1 := fun m member => TypedKey.of_mem typed member
      have total := findBv2Nat_spec I typedEntries isFound
      have integers := findBv2Nat_integers I (List.forall_mem_nil _) isFound
      have isSum : (sum.entries.map (fun m => (m.2 : ℝ) * m.1.node.value I)).sum = sumValue I sum := by
        rw [sumValue, LinearForm.eval_eq_sum]
        rfl
      have isBitVector : ∃ w, bvt.getType = .bitVector w := by
        rcases findBv2Nat_mem isFound with none | ⟨m, member, isNode, kind⟩
        · cases none
        · obtain ⟨bvt', w, isConversion, isType⟩ := (typedEntries m member).of_ubvToInt (isNode ▸ kind)
          rw [isNode] at isConversion
          cases isConversion
          exact ⟨w, isType⟩
      obtain ⟨w, isType⟩ := isBitVector
      obtain ⟨b, isBv⟩ := bitVec_of_getType I isType
      have isConversion : (Node.apply .ubvToInt (.cons bvt .nil)).value I = b.toNat := by
        refine (value_mkNode I .ubvToInt [bvt]).trans ?_
        change ((⌊bvt.value I⌋ : Int) : ℝ) = _
        rw [isBv, Int.floor_natCast, Int.cast_natCast]
      obtain ⟨c, isC⟩ := @IsInteger.sum (otherSum.map (Node.value I)) (by simpa using integers)
      have isOsum : (mkOtherSum otherSum).value I = c := (value_mkOtherSum I otherSum).trans isC
      simp only [termValue, isConversion, isC, isSum, List.map_nil, List.sum_nil, zero_add] at total
      rw [isType]
      cases bv2natPol with
      | true =>
          have isO := (value_negateSum I _).trans (congrArg (-·) isOsum)
          rw [← Int.cast_neg] at isO
          simp only [if_true] at total ⊢
          refine (value_guarded I isInequality isBv isO true).trans ?_
          rw [← total, if_pos rfl, Int.cast_neg, sub_neg_eq_add]
      | false =>
          simp only [Bool.false_eq_true, if_false] at total ⊢
          refine (value_guarded I isInequality isBv isOsum false).trans ?_
          rw [← total, if_neg (by decide), neg_add_eq_sub]
  · exact same

/-- A comparison with the number of a bit-vector is one of bit-vectors, or decided where the constant does
not fit.
-/
theorem value_rewriteIneqToBv {first second : Node} (typed : (mkNode .geq [first, second]).wellTyped = true)
    : (rewriteIneqToBv (mkNode .geq [first, second])).value I = (mkNode .geq [first, second]).value I := by
  obtain ⟨firstTyped, rest⟩ := Bool.and_eq_true_iff.mp (Bool.and_eq_true_iff.mp typed).2
  have secondTyped : second.wellTyped = true := (Bool.and_eq_true_iff.mp rest).1
  have removed (n : Node) (isTyped : n.wellTyped = true) : (removeToReal n).wellTyped = true := by
    unfold removeToReal
    split
    · exact (Bool.and_eq_true_iff.mp (Bool.and_eq_true_iff.mp isTyped).2).1
    · exact isTyped
  have empty : TypedKeys (.empty : Sum) := fun _ nonzero => absurd rfl nonzero
  have keys := (empty.addToSum false _ (removed first firstTyped)).addToSum true _ (removed second secondTyped)
  have difference := sumValue_difference I (removeToReal first) (removeToReal second) false
  rw [value_removeToReal, value_removeToReal, Bool.not_false] at difference
  have isIneq : (mkNode .geq [first, second]).value I = truth (Kind.geq.relates
      (sumValue I (addToSum (addToSum .empty false (removeToReal first)) true (removeToReal second))) 0) := by
    rw [@value_relation I .geq rfl, difference]
    refine truth_congr ?_
    simp [Kind.relates, sign]
  exact (value_rewriteSumToBv I (Or.inl rfl) keys isIneq).trans isIneq.symm

/-- Conversions are eliminated at every width: that of a bit-vector has its unsigned number, that of an integer is its
remainder, so that one undoes the other, and inequalities are rewritten to equivalent ones for every constant. -/
theorem conversions_eliminated
    : (∀ (w : Nat) (n : Node) (b : BitVec w) (I : Interpretation), n.getType = .bitVector w → n.value I = b.toNat
        → (eliminateBv2Nat (mkNode .ubvToInt [n])).value I = b.toNat
          ∧ (eliminateInt2Bv (mkNode (.intToBv w) [eliminateBv2Nat (mkNode .ubvToInt [n])])).value I = b.toNat)
      ∧ (∀ (w : Nat) (n : Node) (i : Int) (I : Interpretation), n.value I = i
        → (eliminateInt2Bv (mkNode (.intToBv w) [n])).value I = (BitVec.ofInt w i).toNat)
      ∧ ∀ (first second : Node) (I : Interpretation), (mkNode .geq [first, second]).wellTyped = true
        → (rewriteIneqToBv (mkNode .geq [first, second])).value I = (mkNode .geq [first, second]).value I := by
  have toBv (w : Nat) (n : Node) (i : Int) (I : Interpretation) (isValue : n.value I = i)
      : (eliminateInt2Bv (mkNode (.intToBv w) [n])).value I = (BitVec.ofInt w i).toNat := by
    have nonneg : 0 ≤ i % 2 ^ w := Int.emod_nonneg i (by positivity)
    rw [value_eliminateInt2Bv I isValue, BitVec.toNat_ofInt, ← Int.cast_natCast, Int.toNat_of_nonneg]
    · push_cast
      rfl
    · exact_mod_cast nonneg
  refine ⟨fun w n b I isType isValue => ?_, toBv, fun _ _ I typed => value_rewriteIneqToBv I typed⟩
  have isNumber := value_eliminateBv2Nat I isType isValue
  refine ⟨isNumber, ?_⟩
  rw [toBv w _ b.toNat I (by rw [isNumber, Int.cast_natCast]), BitVec.ofInt_natCast, BitVec.ofNat_toNat,
    BitVec.setWidth_eq]

omit [LinearOrder Node] in
/-- The bits of `3`, and of `-1` at width two. -/
theorem three_converted
    : let order : LinearOrder Node := @linearOrderOfSTO _ WellOrderingRel _ (Classical.decRel _)
      (eliminateBv2Nat (mkNode .ubvToInt [.constBitVector 2 3])).value zeros = (3#2).toNat
        ∧ (eliminateInt2Bv (mkNode (.intToBv 2) [.constInteger (-1)])).value zeros = (BitVec.ofInt 2 (-1)).toNat
        ∧ (@rewriteIneqToBv order (mkNode .geq [mkNode .ubvToInt [.constBitVector 2 3], .constInteger 5])).value zeros
          = (mkNode .geq [mkNode .ubvToInt [.constBitVector 2 3], .constInteger 5]).value zeros := by
  intro order
  have eliminated := @conversions_eliminated order
  exact ⟨(eliminated.1 2 (.constBitVector 2 3) (3#2) zeros rfl rfl).1,
    eliminated.2.1 2 (.constInteger (-1)) (-1) zeros rfl,
    eliminated.2.2 (mkNode .ubvToInt [.constBitVector 2 3]) (.constInteger 5) zeros (by decide)⟩

end Rewritten

end Ava6.Arith.Rewriter
