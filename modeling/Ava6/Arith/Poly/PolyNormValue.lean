import Mathlib.Algebra.BigOperators.Ring.List
import Mathlib.Algebra.MvPolynomial.Eval
import Ava6.Arith.Poly.PolyNormPolynomial

/-! The polynomial of a node has the value of the node: for arithmetic sorts the same number, for bit-vectors an
integer that is the value in that many bits.
-/

namespace Ava6.Arith.Poly

open Library PolyNorm MvPolynomial

section Applications

variable (I : Interpretation) {k : Kind}

/-- Applications to numbers. -/
theorem apply_num {xs : List ℝ} (combines : Combines k xs.length) (isArith : Kind.ofBitVectors k = false)
    : k.apply I (xs.map .num) = .num (combineAt k 0 0 xs) := by
  have toReals : Value.toReal ∘ Value.num = id := rfl
  cases k with
  | add => rw [combineAt_sum (by simp), zero_add, Kind.apply, List.map_map, toReals, List.map_id]
  | mult | nonlinearMult =>
      obtain ⟨x, rest, rfl⟩ := List.exists_cons_of_length_pos combines
      rw [combineAt_mult (by simp), Kind.apply, List.map_map, toReals, List.map_id]
  | sub =>
      obtain ⟨x, y, rfl⟩ := List.length_eq_two.mp combines
      rw [combineAt_sub (by simp)]
      rfl
  | neg =>
      obtain ⟨x, rfl⟩ := List.length_eq_one_iff.mp combines
      rw [combineAt_neg (by simp)]
      rfl
  | toReal =>
      obtain ⟨x, rfl⟩ := List.length_eq_one_iff.mp combines
      rw [combineAt_sum (by simp), zero_add, List.sum_singleton]
      rfl
  | bitvectorAdd | bitvectorMult | bitvectorSub | bitvectorNeg => cases isArith
  | _ => exact combines.elim

/-- Applications to integers in some number of bits. -/
theorem apply_ofInt {zs : List Int} (combines : Combines k zs.length) (isBitVector : Kind.ofBitVectors k = true) (w : Nat)
    : k.apply I (zs.map (.ofInt w)) = .ofInt w (combineAt k 0 0 zs) := by
  have toInts : Value.toInt ∘ Value.ofInt w = (· % 2 ^ w) := funext (Value.toInt_ofInt w)
  cases k with
  | bitvectorAdd =>
      obtain ⟨z, rest, rfl⟩ := List.exists_cons_of_length_pos combines
      rw [combineAt_sum (by simp), zero_add, Kind.apply, List.map_map, toInts]
      exact Value.ofInt_sum w (z :: rest)
  | bitvectorMult =>
      obtain ⟨z, rest, rfl⟩ := List.exists_cons_of_length_pos combines
      rw [combineAt_mult (by simp), Kind.apply, List.map_map, toInts]
      exact Value.ofInt_prod w (z :: rest)
  | bitvectorSub =>
      obtain ⟨z, z', rfl⟩ := List.length_eq_two.mp combines
      rw [combineAt_sub (by simp)]
      simp only [List.map_cons, List.map_nil, Kind.apply, Value.width_ofInt, Value.toInt_ofInt]
      exact Value.ofInt_eq_iff.mpr (Int.sub_emod z z' _).symm
  | bitvectorNeg =>
      obtain ⟨z, rfl⟩ := List.length_eq_one_iff.mp combines
      rw [combineAt_neg (by simp)]
      simp only [List.map_cons, List.map_nil, Kind.apply, Value.width_ofInt, Value.toInt_ofInt]
      refine Value.ofInt_eq_iff.mpr ?_
      rw [← zero_sub, Int.sub_emod, Int.emod_emod, ← Int.sub_emod, zero_sub]
  | add | mult | nonlinearMult | sub | neg | toReal => cases isBitVector
  | _ => exact combines.elim

end Applications

section Values

variable (I : Interpretation)

/-- The values of the nodes that polynomials are over. -/
noncomputable def pointOf (n : Node) : ℝ := (n.eval I).toReal

/-- The value of the polynomial of a node. -/
noncomputable def polyValue {R : Type*} [CommRing R] [Algebra ℚ R] (point : Node → R) (n : Node) : R :=
  aeval point (polynomial n)

/-- The polynomial of a node of type `t` has its value. -/
structure HasPolyValue (n : Node) (t : TypeNode) : Prop where
  arith (isArith : t.isRealOrInt = true) : n.eval I = .num (polyValue (pointOf I) n)
  bitVector (w : Nat) (isBitVector : t = .bitVector w) : ∃ z : Int, polyValue (pointOf I) n = z ∧ n.eval I = .ofInt w z

theorem hasPolyValue_leaf {n : Node} {t : TypeNode} (isLeaf : IsLeaf n) (typed : n.getType = some t) : HasPolyValue I n t := by
  have value : polyValue (pointOf I) n = (n.eval I).toReal := by rw [polyValue, polynomial_leaf isLeaf, aeval_X, pointOf]
  have hasType := n.getType_sound I typed
  refine ⟨fun isArith => ?_, fun w isBitVector => ?_⟩
  · rw [value, ← hasType_num_of_isRealOrInt isArith hasType]
  · rw [isBitVector] at hasType
    cases shape : n.eval I with
    | bv width v =>
        rw [shape] at hasType value
        obtain ⟨rfl, small⟩ := hasType
        exact ⟨v, by rw [value]; rfl, (Value.ofInt_natCast small).symm⟩
    | bool _ | num _ | elem _ _ =>
        rw [shape] at hasType
        cases hasType

theorem polyValue_combination {k : Kind} {children : List Node} (combines : Combines k children.length)
    : polyValue (pointOf I) (mkNode k children) = combineAt k 0 0 (children.map (polyValue (pointOf I))) := by
  have isHom := combineAt_map (aeval (pointOf I) : MvPolynomial Node ℚ →ₐ[ℚ] ℝ).toRingHom k 0 0 (children.map polynomial)
  rw [map_zero, List.map_map] at isHom
  rw [polyValue, polynomial_combination combines]
  exact isHom

/-- By induction over the nodes that have a type. -/
theorem hasPolyValue (n : Node) (t : TypeNode) (typed : n.getType = some t) : HasPolyValue I n t := by
  refine polyInduction ?_ (fun n t isLeaf typed => hasPolyValue_leaf I isLeaf typed) ?_ ?_ n t typed
  · intro n c t isConstant typed
    have value : polyValue (pointOf I) n = c := by rw [polyValue, polynomial_constant isConstant, aeval_C, eq_ratCast]
    cases n with
    | constInteger _ | constRational _ =>
        obtain rfl := Option.some.inj typed
        obtain rfl := Option.some.inj isConstant
        refine ⟨fun _ => ?_, fun w isBitVector => by cases isBitVector⟩
        simp [value, Node.eval]
    | constBitvector width v =>
        obtain rfl := Option.some.inj typed
        obtain rfl := Option.some.inj isConstant
        refine ⟨fun isArith => (by cases isArith), fun w isBitVector => ?_⟩
        cases isBitVector
        exact ⟨v.toNat, by rw [value, Rat.cast_natCast, Int.cast_natCast], (Value.ofInt_natCast v.isLt).symm⟩
    | var _ _ | apply _ _ => cases isConstant
  · intro k children types t isCombination computed below
    obtain ⟨combines, areSubterms, sort⟩ := computeType_combination isCombination computed
    rw [← below.length_eq] at combines
    cases isBitVector : Kind.ofBitVectors k with
    | false =>
        have isArith : t.isRealOrInt = true := by rwa [isBitVector] at sort
        have values : children.map (Node.eval I) = (children.map (polyValue (pointOf I))).map .num := by
          rw [List.map_map]
          refine List.map_congr_left fun child isChild => ?_
          obtain ⟨s, isType, ofChild⟩ := forall₂_exists below isChild
          exact ofChild.arith ((areSubterms s isType).arith isArith)
        refine ⟨fun _ => ?_, fun w isBits => by rw [isBits] at isArith; cases isArith⟩
        rw [eval_mkNode, values, apply_num I (by rwa [List.length_map]) isBitVector, polyValue_combination I combines]
    | true =>
        have isBits : t.isBitVector = true := by rwa [isBitVector] at sort
        refine ⟨fun isArith => ?_, fun w isWidth => ?_⟩
        · cases t with
          | int | real => cases isBits
          | bool | bitVector _ | other _ => cases isArith
        · have integers : ∀ child ∈ children, ∃ z : Int, polyValue (pointOf I) child = z ∧ child.eval I = .ofInt w z := by
            intro child isChild
            obtain ⟨s, isType, ofChild⟩ := forall₂_exists below isChild
            exact ofChild.bitVector w (((areSubterms s isType).integral (by rw [isWidth]; rfl)).trans isWidth)
          choose! f isValue isEval using integers
          refine ⟨combineAt k 0 0 (children.map f), ?_, ?_⟩
          · have isHom := combineAt_map (Int.castRingHom ℝ) k 0 0 (children.map f)
            rw [map_zero, List.map_map] at isHom
            rw [polyValue_combination I combines, List.map_congr_left isValue]
            exact isHom.symm
          · have values : children.map (Node.eval I) = (children.map f).map (.ofInt w) := by
              rw [List.map_map]
              exact List.map_congr_left isEval
            rw [eval_mkNode, values, apply_ofInt I (by rwa [List.length_map]) isBitVector]
  · intro k x y c s isDivision isConst differs isArith ofX
    have nonzero : (c : ℝ) ≠ 0 := Rat.cast_ne_zero.mpr differs
    have value : polyValue (pointOf I) (mkNode k [x, y]) = polyValue (pointOf I) x * (c : ℝ)⁻¹ := by
      rw [polyValue, polynomial_division isDivision isConst differs, map_mul, aeval_C, eq_ratCast, Rat.cast_inv]
      rfl
    refine ⟨fun _ => ?_, fun w isBitVector => by cases isBitVector⟩
    rw [eval_mkNode, value, List.map_cons, List.map_cons, List.map_nil, ofX.arith isArith, eval_of_getConst I isConst]
    rcases isDivision with rfl | rfl <;> simp [Kind.apply, Value.toReal, nonzero, div_eq_mul_inv]

variable [LinearOrder Node] [LinearOrder MonoVar] {p q : PolyNorm} {t : TypeNode}

/-- The value of a normal form is that of its polynomial. -/
theorem evalAt_eq_aeval (p : PolyNorm) : p.evalAt (pointOf I) = aeval (pointOf I) p.toPolynomial := by
  rw [toPolynomial, evalAt_eq_entriesAt, evalAt_eq_entriesAt, entriesAt, entriesAt, map_list_sum, List.map_map]
  refine congrArg List.sum (List.map_congr_left fun m _ => ?_)
  rw [Function.comp_apply, monomialAt, monomialAt, map_mul, AlgHom.commutes, MonoVar.evalAt, MonoVar.evalAt,
    map_list_prod, List.map_map]
  refine congrArg (_ * List.prod ·) (List.map_congr_left fun v _ => ?_)
  exact (aeval_X _ v).symm

theorem evalAt_mkPolyNorm {n : Node} (typed : n.getType = some t) : (mkPolyNorm n).evalAt (pointOf I) = polyValue (pointOf I) n := by
  rw [evalAt_eq_aeval, toPolynomial_mkPolyNorm n t typed, polyValue]

omit [LinearOrder MonoVar] in
/-- The variables of integral types have integers as values. -/
theorem integral_evalAt (isIntegral : t.isIntegral = true) {x : MonoVar} (areVariables : ∀ v ∈ x.vars, v ∈ polyVariables t)
    : ∃ z : Int, x.evalAt (pointOf I) = z := by
  have ofVariable {v : Node} (isVariable : v ∈ polyVariables t) : ∃ z : Int, pointOf I v = z := by
    obtain ⟨-, s, typed, isSubterm⟩ := isVariable
    rw [isSubterm.integral isIntegral] at typed
    have hasType := v.getType_sound I typed
    rw [pointOf]
    cases t with
    | int => exact hasType.integral
    | bitVector w =>
        cases shape : v.eval I with
        | bv width value => exact ⟨value, (Int.cast_natCast value).symm⟩
        | bool _ | num _ | elem _ _ => rw [shape] at hasType; cases hasType
    | bool | real | other _ => cases isIntegral
  rw [MonoVar.evalAt]
  generalize x.vars = vars at areVariables
  induction vars with
  | nil => exact ⟨1, by simp⟩
  | cons v rest ih =>
      obtain ⟨isVariable, areRest⟩ := List.forall_mem_cons.mp areVariables
      obtain ⟨z, isFirst⟩ := ofVariable isVariable
      obtain ⟨z', isProduct⟩ := ih areRest
      exact ⟨z * z', by rw [List.map_cons, List.prod_cons, isFirst, isProduct, Int.cast_mul]⟩

end Values

end Ava6.Arith.Poly
