import Mathlib.Tactic.Linarith
import Mathlib.Tactic.FieldSimp
import Mathlib.RingTheory.Int.Basic
import Ava6.Arith.Poly.PolyNormValue

/-! The comparison of relations by their polynomials: the factors are not zero, the premise built
from them is valid, and the relations are equivalent.
-/

namespace Ava6.Arith.Poly

open Library PolyNorm

/-- A relation between two numbers, as one of their difference. -/
def relationHolds (k : Kind) (difference : ℝ) : Prop :=
  match k with
  | .equal => difference = 0
  | .lt => difference < 0
  | .leq => difference ≤ 0
  | .gt => 0 < difference
  | .geq => 0 ≤ difference
  | _ => False

theorem relation_cases {k : Kind} (isRel : isRelation k = true)
    : k = .lt ∨ k = .leq ∨ k = .equal ∨ k = .gt ∨ k = .geq := by
  simpa [isRelation] using isRel

theorem apply_relation (I : Interpretation) {k : Kind} (isRel : isRelation k = true) (x y : ℝ)
    : k.apply I [.num x, .num y] = .bool (relationHolds k (x - y)) := by
  rcases relation_cases isRel with rfl | rfl | rfl | rfl | rfl <;>
    simp [Kind.apply, relationHolds, Value.toReal, sub_eq_zero]

theorem pos_iff_of_sign {p q : Rat} (same : p.num.sign = q.num.sign) : (0 < p ↔ 0 < q) := by
  rw [← Rat.num_pos, ← Rat.num_pos, ← Int.sign_eq_one_iff_pos, ← Int.sign_eq_one_iff_pos, same]

theorem relationHolds_mul {c : ℝ} (positive : 0 < c) (k : Kind) (y : ℝ)
    : relationHolds k (c * y) ↔ relationHolds k y := by
  have scaled {a b : ℝ} : c * a < c * b ↔ a < b := mul_lt_mul_iff_right₀ positive
  have below : c * y < 0 ↔ y < 0 := by simpa using scaled (a := y) (b := 0)
  have above : 0 < c * y ↔ 0 < y := by simpa using scaled (a := 0) (b := y)
  cases k with
  | equal => simp [relationHolds, ne_of_gt positive]
  | lt => exact below
  | leq => exact not_lt.symm.trans (above.not.trans not_lt)
  | gt => exact above
  | geq => exact not_lt.symm.trans (below.not.trans not_lt)
  | _ => exact Iff.rfl

/-- Multiples by factors of the same sign are in the same relation to zero; for an equality the
signs do not matter.
-/
theorem relationHolds_scale {k : Kind} {c d : Rat} {x y : ℝ} (c_ne : c ≠ 0) (d_ne : d ≠ 0)
    (signs : k = .equal ∨ c.num.sign = d.num.sign) (scaled : (c : ℝ) * x = d * y)
    : relationHolds k x ↔ relationHolds k y := by
  have c_ne' : (c : ℝ) ≠ 0 := Rat.cast_ne_zero.mpr c_ne
  have d_ne' : (d : ℝ) ≠ 0 := Rat.cast_ne_zero.mpr d_ne
  rcases signs with rfl | same
  · constructor
    · intro isZero
      obtain rfl : x = 0 := isZero
      rw [mul_zero] at scaled
      exact (mul_eq_zero.mp scaled.symm).resolve_left d_ne'
    · intro isZero
      obtain rfl : y = 0 := isZero
      rw [mul_zero] at scaled
      exact (mul_eq_zero.mp scaled).resolve_left c_ne'
  · -- One number is a positive multiple of the other.
    have ratio : 0 < (d : ℝ) / c := by
      rcases lt_or_gt_of_ne c_ne with negative | positive
      · have negative' : d < 0 :=
          lt_of_le_of_ne (not_lt.mp (mt (pos_iff_of_sign same).mpr (not_lt_of_gt negative)))
            d_ne
        exact div_pos_of_neg_of_neg (by exact_mod_cast negative') (by exact_mod_cast negative)
      · exact div_pos (by exact_mod_cast (pos_iff_of_sign same).mp positive)
          (by exact_mod_cast positive)
    have multiple : x = d / c * y := by
      field_simp
      linarith
    rw [multiple]
    exact relationHolds_mul ratio k y

section Factors

variable [LinearOrder Node] [LinearOrder MonoVar] {pa pb : PolyNorm} {ca cb : Rat}

theorem leadingCoefficient_integral (member : pa.toPolynomial ∈ typedPolynomials .int)
    : ∃ z : Int, pa.leadingCoefficient = z := by
  rw [leadingCoefficient]
  cases first : pa.monomials.entries.head? with
  | none => exact ⟨1, Int.cast_one.symm⟩
  | some m =>
      obtain ⟨isCoefficient, -⟩ := mem_entries.mp (List.mem_of_mem_head? first)
      rw [Option.map_some, Option.getD_some, ← isCoefficient]
      exact exists_coefficient member rfl m.1

theorem leadingCoefficient_ne_zero (p : PolyNorm) : p.leadingCoefficient ≠ 0 := by
  rw [leadingCoefficient]
  cases first : p.monomials.entries.head? with
  | none => exact one_ne_zero
  | some m => exact p.nonzero m (List.mem_of_mem_head? first)

/-- Factors that make the polynomials equal. -/
structure Factors (k : Kind) (pa pb : PolyNorm) (ca cb : Rat) : Prop where
  left_ne : ca ≠ 0
  right_ne : cb ≠ 0
  signs : k = .equal ∨ ca.num.sign = cb.num.sign
  scaled (I : Interpretation) : (ca : ℝ) * pa.evalAt (pointOf I) = cb * pb.evalAt (pointOf I)
  integral (left : pa.toPolynomial ∈ typedPolynomials .int) (right : pb.toPolynomial ∈ typedPolynomials .int)
    : (∃ z : Int, ca = z) ∧ ∃ z : Int, cb = z

theorem arithFactors_spec {k : Kind} (found : arithFactors k pa pb = some (ca, cb))
    : Factors k pa pb ca cb := by
  rw [arithFactors] at found
  split at found
  · next equal =>
      split at found
      · next signs =>
          simp only [Option.some.injEq, Prod.mk.injEq] at found
          obtain ⟨rfl, rfl⟩ := found
          refine ⟨leadingCoefficient_ne_zero pb, leadingCoefficient_ne_zero pa, signs, fun I => ?_,
            fun left right => ⟨leadingCoefficient_integral right, leadingCoefficient_integral left⟩⟩
          have values := evalAt_of_isEqual (pointOf I) equal
          rwa [evalAt_mulCoeffs, evalAt_mulCoeffs, mul_comm, mul_comm (pb.evalAt _), eq_ratCast, eq_ratCast] at values
      · exact absurd found (by simp)
  · exact absurd found (by simp)

end Factors

-- Coefficients modulo a power of two

section Modulo

theorem odd_mod_pow {a : Int} {width : Nat} (odd : a % 2 = 1) (positive : 0 < width)
    : Odd (a % 2 ^ width) := by
  have divides : (2 : Int) ∣ 2 ^ width := dvd_pow_self 2 (Nat.pos_iff_ne_zero.mp positive)
  rw [Int.odd_iff, Int.emod_emod_of_dvd a divides, odd]

variable [LinearOrder Node] (I : Interpretation)

/-- Taking the coefficients modulo `c` changes the value by a multiple of `c`. -/
theorem entriesAt_mod (c : Nat) (entries : List (MonoVar × Rat))
    (integral : ∀ m ∈ entries, (∃ a : Int, m.2 = a) ∧ ∃ x : Int, m.1.evalAt (pointOf I) = x)
    : ∃ z : Int, entriesAt (pointOf I) entries
        = entriesAt (pointOf I) (entries.map (fun m => (m.1, ((m.2.num % c : Int) : Rat)))) + c * z := by
  induction entries with
  | nil => exact ⟨0, by simp [entriesAt]⟩
  | cons m rest ih =>
      obtain ⟨z, same⟩ := ih (fun m' member => integral m' (List.mem_cons_of_mem m member))
      obtain ⟨⟨a, isInteger⟩, ⟨x, value⟩⟩ := integral m List.mem_cons_self
      refine ⟨a / c * x + z, ?_⟩
      rw [List.map_cons, entriesAt_cons, entriesAt_cons, same, monomialAt, monomialAt, value, isInteger]
      have divided : (a : ℝ) = ((a % c : Int) : ℝ) + c * ((a / c : Int) : ℝ) := by
        exact_mod_cast (Int.emod_add_mul_ediv a c).symm
      simp only [eq_ratCast, Rat.num_intCast, Rat.cast_intCast]
      push_cast
      rw [divided]
      ring

variable [LinearOrder MonoVar]

theorem evalAt_modCoeffs {p : PolyNorm} {w : Nat} (member : p.toPolynomial ∈ typedPolynomials (.bitVector w)) (c : Nat)
    : ∃ z : Int, p.evalAt (pointOf I) = (p.modCoeffs c).evalAt (pointOf I) + c * z := by
  obtain ⟨z, same⟩ := entriesAt_mod I c p.monomials.entries (fun m isEntry => by
    rw [← (mem_entries.mp isEntry).1]
    exact ⟨exists_coefficient member rfl m.1, integral_evalAt I rfl (mem_polyVariables member isEntry)⟩)
  refine ⟨z, ?_⟩
  rw [evalAt_eq_entriesAt, evalAt_eq_entriesAt, same]
  congr 1
  exact (entriesAt_filter (pointOf I) _).symm

/-- Odd factors that make the polynomials equal modulo a power of two. -/
structure OddFactors (width : Nat) (pa pb : PolyNorm) (ca cb : Rat) : Prop where
  isInt : ∃ za zb : Int, ca = za ∧ cb = zb ∧ Odd za ∧ Odd zb
  scaled (I : Interpretation) (left : pa.toPolynomial ∈ typedPolynomials (.bitVector width))
    (right : pb.toPolynomial ∈ typedPolynomials (.bitVector width))
    : ∃ z : Int, (ca : ℝ) * pa.evalAt (pointOf I) = cb * pb.evalAt (pointOf I) + 2 ^ width * z

theorem oddFactors_spec {width : Nat} {pb : PolyNorm} {entries : List (MonoVar × Rat)} {ca cb : Rat}
    (found : oddFactors width pb entries = some (ca, cb))
    : ∃ za zb : Int, ca = za ∧ cb = zb ∧ Odd za ∧ Odd zb := by
  have ones : ∃ za zb : Int, (1 : Rat) = za ∧ (1 : Rat) = zb ∧ Odd za ∧ Odd zb :=
    ⟨1, 1, by simp, by simp, odd_one, odd_one⟩
  induction entries with
  | nil =>
      obtain ⟨rfl, rfl⟩ : 1 = ca ∧ 1 = cb := by simpa [oddFactors] using found
      exact ones
  | cons m rest ih =>
      rw [oddFactors] at found
      split at found
      · exact absurd found (by simp)
      · next b _ =>
          split at found
          · exact absurd found (by simp)
          · next sameParity =>
              split at found
              · next oddA =>
                  have oddB : isOdd b = true := (not_not.mp sameParity) ▸ oddA
                  dsimp only at found
                  split at found
                  · next differ =>
                      obtain ⟨rfl, rfl⟩ : _ = ca ∧ _ = cb := by
                        simpa only [Option.some.injEq, Prod.mk.injEq] using found
                      have positive : 0 < width := by
                        by_contra notPositive
                        obtain rfl : width = 0 := by omega
                        exact differ (by simp)
                      refine ⟨_, _, rfl, rfl, odd_mod_pow ?_ positive, odd_mod_pow ?_ positive⟩
                      · simpa [isOdd] using oddB
                      · simpa [isOdd] using oddA
                  · obtain ⟨rfl, rfl⟩ : 1 = ca ∧ 1 = cb := by simpa using found
                    exact ones
              · exact ih found

omit I in
/-- The factors that are found are odd and make the differences equal, as the search checks all
coefficients.
-/
theorem bitVectorFactors_spec {width : Nat} {pa pb : PolyNorm} {ca cb : Rat}
    (found : bitVectorFactors width pa pb = some (ca, cb))
    : OddFactors width pa pb ca cb := by
  rw [bitVectorFactors, Option.bind_eq_bind, Option.bind_eq_some_iff] at found
  obtain ⟨⟨c, d⟩, isOdds, accepted⟩ := found
  dsimp only at accepted
  split at accepted
  · next equal =>
      obtain ⟨rfl, rfl⟩ : c = ca ∧ d = cb := by simpa using accepted
      have isInt := oddFactors_spec isOdds
      refine ⟨isInt, fun I left right => ?_⟩
      obtain ⟨za, zb, rfl, rfl, -, -⟩ := isInt
      have multiple {p : PolyNorm} (member : p.toPolynomial ∈ typedPolynomials (.bitVector width)) (a : Int)
          : (p.mulCoeffs (a : Rat)).toPolynomial ∈ typedPolynomials (.bitVector width) := by
        rw [toPolynomial, evalAt_mulCoeffs]
        exact Subring.mul_mem _ member (C_mem_typedPolynomials fun _ => ⟨a, rfl⟩)
      obtain ⟨z, value⟩ := evalAt_modCoeffs I (multiple left za) (2 ^ width)
      obtain ⟨z', value'⟩ := evalAt_modCoeffs I (multiple right zb) (2 ^ width)
      rw [evalAt_mulCoeffs, eq_ratCast] at value value'
      have same := evalAt_of_isEqual (pointOf I) equal
      refine ⟨z - z', ?_⟩
      push_cast at value value' ⊢
      rw [same] at value
      linarith
  · exact absurd accepted (by simp)

end Modulo

/-- A well-sorted relation between terms of sort Int, Real or of a bit-vector sort. -/
structure IsAtom (a : Node) : Prop where
  typed : a.getType = some .bool
  relation : isRelation a.getKind = true
  numeric : ∀ n ∈ a.children, n.getType.all TypeNode.isNumeric = true

/-- An atom is an arithmetic relation or an equality of bit-vectors. -/
inductive Sides : Node → Prop
  | arith (k : Kind) (relation : isRelation k = true) (left right : Node) (t s : TypeNode)
    (leftType : left.getType = some t) (rightType : right.getType = some s)
    (leftArith : t.isRealOrInt = true) (rightArith : s.isRealOrInt = true)
    (sameType : k = .equal → t = s)
    : Sides (mkNode k [left, right])
  | bitVector (left right : Node) (w : Nat) (leftType : left.getType = some (.bitVector w))
    (rightType : right.getType = some (.bitVector w))
    : Sides (mkNode .equal [left, right])

theorem apply_eq_mkNode {k : Kind} {children : Nodes} {nodes : List Node}
    (same : children.toList = nodes)
    : Node.apply k children = mkNode k nodes := by
  rw [mkNode, ← same, Nodes.ofList_toList]

theorem IsAtom.sides {a : Node} (atom : IsAtom a) : Sides a := by
  cases a with
  | apply k children =>
      obtain ⟨types, ofChildren, computed⟩ := Node.getType_apply atom.typed
      have isRel : isRelation k = true := atom.relation
      match types with
      | [t, s] =>
          obtain ⟨left, right, nodes, leftType, rightType⟩ := forall₂_pair ofChildren
          have numeric (n : Node) (r : TypeNode) (member : n ∈ children.toList)
              (typed : n.getType = some r)
              : r.isNumeric = true := by
            have all := atom.numeric n member
            rwa [typed] at all
          have leftNumeric := numeric left t (by simp [nodes]) leftType
          rw [apply_eq_mkNode nodes]
          by_cases isEquality : k = .equal
          · subst isEquality
            obtain rfl : t = s := by
              by_contra differs
              simp [Kind.computeType, TypeNode.leastUpperBound, differs] at computed
            cases t with
            | int | real =>
                exact .arith .equal rfl left right _ _ leftType rightType rfl rfl (fun _ => rfl)
            | bitVector w => exact .bitVector left right w leftType rightType
            | bool | other _ => simp [TypeNode.isNumeric, TypeNode.isRealOrInt,
                TypeNode.isBitVector] at leftNumeric
          · have arith : t.isRealOrInt = true ∧ s.isRealOrInt = true := by
              rcases relation_cases isRel with rfl | rfl | rfl | rfl | rfl
              all_goals first
                | exact absurd rfl isEquality
                | simpa [Kind.computeType] using computed
            exact .arith k isRel left right t s leftType rightType arith.1 arith.2
              (fun same => absurd same isEquality)
      | [] | [_] | _ :: _ :: _ :: _ =>
          rcases relation_cases isRel with rfl | rfl | rfl | rfl | rfl <;>
            simp [Kind.computeType] at computed
  | var _ _ | constInteger _ | constRational _ | constBitvector _ _ =>
      have isRel := atom.relation
      simp [isRelation, Node.getKind] at isRel

-- Relations with equal polynomials

section Meaning

variable (I : Interpretation) {x y : Node} {p q : ℝ}

theorem satisfies_equal : I.Satisfies (mkNode .equal [x, y]) ↔ x.eval I = y.eval I := by
  rw [Interpretation.Satisfies, eval_mkNode]
  exact Iff.rfl

theorem eval_product (left : x.eval I = .num p) (right : y.eval I = .num q)
    : (mkNode .mult [x, y]).eval I = .num (p * q) := by
  rw [eval_mkNode]
  simp [Kind.apply, left, right, Value.toReal]

theorem eval_difference (left : x.eval I = .num p) (right : y.eval I = .num q)
    : (mkNode .sub [x, y]).eval I = .num (p - q) := by
  rw [eval_mkNode]
  simp [Kind.apply, left, right, Value.toReal]

theorem eval_mkReal (value : x.eval I = .num p) : (mkReal x).eval I = .num p := by
  rw [mkReal]
  split
  · rw [eval_mkNode]
    simp [Kind.apply, value, Value.toReal]
  · exact value

theorem satisfies_relation {k : Kind} (isRel : isRelation k = true) (left : x.eval I = .num p)
    (right : y.eval I = .num q)
    : I.Satisfies (mkNode k [x, y]) ↔ relationHolds k (p - q) := by
  rw [Interpretation.Satisfies, eval_mkNode, List.map_cons, List.map_cons, List.map_nil, left, right,
    apply_relation I isRel]
  exact Iff.rfl

theorem eval_bitvectorProduct {w : Nat} {y' z : Int} (left : x.eval I = .ofInt w z)
    (right : y.eval I = .ofInt w y')
    : (mkNode .bitvectorMult [x, y]).eval I = .ofInt w (z * y') := by
  have product := Value.ofInt_prod w [z, y']
  rw [eval_mkNode, List.map_cons, List.map_cons, List.map_nil, left, right]
  simpa [Kind.apply, widthOf] using product

theorem eval_bitvectorDifference {w : Nat} {y' z : Int} (left : x.eval I = .ofInt w z)
    (right : y.eval I = .ofInt w y')
    : (mkNode .bitvectorSub [x, y]).eval I = .ofInt w (z - y') := by
  rw [eval_mkNode, List.map_cons, List.map_cons, List.map_nil, left, right]
  simp only [Kind.apply, Value.width_ofInt, Value.toInt_ofInt]
  exact Value.ofInt_eq_iff.mpr (Int.sub_emod z y' _).symm

theorem eval_constBitvector (w : Nat) (z : Int)
    : (Node.constBitvector w (BitVec.ofInt w z)).eval I = .ofInt w z := by
  rw [Node.eval, BitVec.toNat_ofInt, Value.ofInt]
  push_cast
  rfl

theorem ofInt_eq_iff_dvd {w : Nat} {y' z : Int}
    : Value.ofInt w z = .ofInt w y' ↔ (2 : Int) ^ w ∣ z - y' := by
  rw [Value.ofInt_eq_iff, Int.emod_eq_emod_iff_emod_sub_eq_zero, Int.dvd_iff_emod_eq_zero]

/-- Odd multiples that differ by a multiple of a power of two. -/
theorem dvd_iff_of_odd {w : Nat} {a b za zb z : Int} (oddA : Odd za) (oddB : Odd zb)
    (scaled : za * a = zb * b + 2 ^ w * z)
    : (2 : Int) ^ w ∣ a ↔ (2 : Int) ^ w ∣ b := by
  have coprime {c : Int} (odd : Odd c) : IsCoprime ((2 : Int) ^ w) c :=
    (Int.isCoprime_two_left.mpr odd).pow_left
  constructor
  · intro divides
    have divided : (2 : Int) ^ w ∣ zb * b + 2 ^ w * z := scaled ▸ divides.mul_left za
    exact (coprime oddB).dvd_of_dvd_mul_left ((Int.dvd_add_left (Dvd.intro z rfl)).mp divided)
  · intro divides
    have divided : (2 : Int) ^ w ∣ za * a := by
      rw [scaled]
      exact Int.dvd_add (divides.mul_left zb) (Dvd.intro z rfl)
    exact (coprime oddA).dvd_of_dvd_mul_left divided

theorem getType_pair {k : Kind} {t s : TypeNode} (left : x.getType = some t)
    (right : y.getType = some s)
    : (mkNode k [x, y]).getType = k.computeType [t, s] := by
  simp [mkNode, Nodes.ofList, Node.getType, Nodes.getTypes, left, right]

end Meaning

/-- The interpretation of every variable by zero. -/
noncomputable def zeros : Interpretation where
  var type _ := .default type
  op _ range _ := .default range
  divideByZero _ := 0
  var_hasType type _ := Value.default_hasType type
  op_hasType _ range _ := Value.default_hasType range

@[simp]
theorem children_mkNode (k : Kind) (nodes : List Node) : (mkNode k nodes).children = nodes :=
  Nodes.toList_ofList nodes

theorem getKind_mkNode (k : Kind) (nodes : List Node) : (mkNode k nodes).getKind = k := rfl

theorem mkConstInt_of_integral {c : Rat} (integral : ∃ z : Int, c = z)
    : mkConstInt c = some (.constInteger c.num) ∧ (c : ℝ) = (c.num : ℝ) := by
  obtain ⟨z, rfl⟩ := integral
  constructor
  · simp [mkConstInt]
  · simp

section Relations

variable [LinearOrder Node] [LinearOrder MonoVar]

/-- What `isArithPolyNormRel` promises about the factors it returns. -/
structure RelationsAgree (a b : Node) (ca cb : Rat) : Prop where
  left_ne : ca ≠ 0
  right_ne : cb ≠ 0
  odd : ∀ n ∈ a.children, ∀ w, n.getType = some (.bitVector w)
    → ca.den = 1 ∧ cb.den = 1 ∧ Odd ca.num ∧ Odd cb.num
  signs : a.getKind ≠ .equal → ca.num.sign = cb.num.sign
  premise : ∃ premise, getArithPolyNormRelPremise a b ca cb = some premise
    ∧ ∀ I : Interpretation, I.Satisfies premise
  equivalent (I : Interpretation) : I.Satisfies a ↔ I.Satisfies b

variable {a0 a1 b0 b1 : Node} {t s t' s' : TypeNode} {ca cb : Rat} {k : Kind}

theorem evalAt_mkDiff (I : Interpretation) (leftType : a0.getType = some t) (rightType : a1.getType = some s)
    : (mkDiff a0 a1).evalAt (pointOf I) = polyValue (pointOf I) a0 - polyValue (pointOf I) a1 := by
  rw [mkDiff, evalAt_subtract, evalAt_mkPolyNorm I leftType, evalAt_mkPolyNorm I rightType]

theorem mkDiff_mem (leftType : a0.getType = some t) (rightType : a1.getType = some t)
    : (mkDiff a0 a1).toPolynomial ∈ typedPolynomials t := by
  have left := polynomial_mem a0 t leftType
  have right := polynomial_mem a1 t rightType
  rw [← toPolynomial_mkPolyNorm _ t leftType] at left
  rw [← toPolynomial_mkPolyNorm _ t rightType] at right
  rw [mkDiff, toPolynomial, evalAt_subtract]
  exact Subring.sub_mem _ left right

omit [LinearOrder Node] [LinearOrder MonoVar] in
/-- The premise built for two arithmetic relations. -/
theorem premise_arith (typeA0 : a0.getType = some t) (typeB0 : b0.getType = some t')
    (arithA0 : t.isRealOrInt = true) (rx ry : Rat)
    : getArithPolyNormRelPremise (mkNode k [a0, a1]) (mkNode k [b0, b1]) rx ry
      = if (mkNode .sub [a0, a1]).getType = some .int ∧ (mkNode .sub [b0, b1]).getType = some .int
        then do
          let cx ← mkConstInt rx
          let cy ← mkConstInt ry
          some (mkNode .equal [mkNode .mult [cx, mkNode .sub [a0, a1]],
            mkNode .mult [cy, mkNode .sub [b0, b1]]])
        else
          some (mkNode .equal [mkNode .mult [.constRational rx, mkReal (mkNode .sub [a0, a1])],
            mkNode .mult [.constRational ry, mkReal (mkNode .sub [b0, b1])]]) := by
  simp only [getArithPolyNormRelPremise, children_mkNode, typeA0, typeB0]
  cases t <;> simp only [TypeNode.isRealOrInt, Bool.false_eq_true] at arithA0 <;> rfl

theorem mkDiff_mem_int (typeA0 : a0.getType = some t) (typeA1 : a1.getType = some s)
    (isInt : (mkNode .sub [a0, a1]).getType = some .int)
    : (mkDiff a0 a1).toPolynomial ∈ typedPolynomials .int := by
  rw [getType_pair typeA0 typeA1] at isInt
  have areInt := (computeType_combination rfl isInt).2.1
  obtain rfl := (areInt t (by simp)).integral rfl
  obtain rfl := (areInt s (by simp)).integral rfl
  exact mkDiff_mem typeA0 typeA1

/-- Relations of numbers agree if the differences of their sides agree up to factors, which have one sign
for an inequality.
-/
theorem relationsAgree_arith (isRel : isRelation k = true) (typeA0 : a0.getType = some t)
    (typeA1 : a1.getType = some s) (typeB0 : b0.getType = some t') (typeB1 : b1.getType = some s')
    (arithA0 : t.isRealOrInt = true) (arithA1 : s.isRealOrInt = true)
    (arithB0 : t'.isRealOrInt = true) (arithB1 : s'.isRealOrInt = true)
    (factors : Factors k (mkDiff a0 a1) (mkDiff b0 b1) ca cb)
    : RelationsAgree (mkNode k [a0, a1]) (mkNode k [b0, b1]) ca cb := by
  have valueA0 (I : Interpretation) := (hasPolyValue I a0 t typeA0).arith arithA0
  have valueA1 (I : Interpretation) := (hasPolyValue I a1 s typeA1).arith arithA1
  have valueB0 (I : Interpretation) := (hasPolyValue I b0 t' typeB0).arith arithB0
  have valueB1 (I : Interpretation) := (hasPolyValue I b1 s' typeB1).arith arithB1
  have scaled (I : Interpretation) := factors.scaled I
  simp only [evalAt_mkDiff _ typeA0 typeA1, evalAt_mkDiff _ typeB0 typeB1] at scaled
  refine ⟨factors.left_ne, factors.right_ne, ?_, ?_, ?_, ?_⟩
  · intro n member w isBitVector
    have arith : ∃ r : TypeNode, n.getType = some r ∧ r.isRealOrInt = true := by
      rcases List.mem_cons.mp member with rfl | second
      · exact ⟨t, typeA0, arithA0⟩
      · obtain rfl := List.mem_singleton.mp second
        exact ⟨s, typeA1, arithA1⟩
    obtain ⟨r, typed, isArith⟩ := arith
    rw [typed] at isBitVector
    rw [Option.some.inj isBitVector] at isArith
    exact absurd isArith (by simp [TypeNode.isRealOrInt])
  · intro notEqual
    exact factors.signs.resolve_left notEqual
  · rw [premise_arith typeA0 typeB0 arithA0]
    have valueA (I : Interpretation) := eval_difference I (valueA0 I) (valueA1 I)
    have valueB (I : Interpretation) := eval_difference I (valueB0 I) (valueB1 I)
    split
    · next areInt =>
        obtain ⟨integralA, integralB⟩ := factors.integral (mkDiff_mem_int typeA0 typeA1 areInt.1)
          (mkDiff_mem_int typeB0 typeB1 areInt.2)
        obtain ⟨isConstA, castA⟩ := mkConstInt_of_integral integralA
        obtain ⟨isConstB, castB⟩ := mkConstInt_of_integral integralB
        refine ⟨_, by rw [isConstA, isConstB]; rfl, fun I => ?_⟩
        rw [satisfies_equal, eval_product I (p := ca) (by rw [castA]; rfl) (valueA I),
          eval_product I (p := cb) (by rw [castB]; rfl) (valueB I), scaled I]
    · refine ⟨_, rfl, fun I => ?_⟩
      rw [satisfies_equal, eval_product I (p := ca) rfl (eval_mkReal I (valueA I)),
        eval_product I (p := cb) rfl (eval_mkReal I (valueB I)), scaled I]
  · intro I
    rw [satisfies_relation I isRel (valueA0 I) (valueA1 I),
      satisfies_relation I isRel (valueB0 I) (valueB1 I)]
    exact relationHolds_scale factors.left_ne factors.right_ne factors.signs (scaled I)

/-- Equalities of bit-vectors agree, since odd factors are invertible modulo two to the width. -/
theorem relationsAgree_bitVector {w : Nat} (typeA0 : a0.getType = some (.bitVector w))
    (typeA1 : a1.getType = some (.bitVector w)) (typeB0 : b0.getType = some (.bitVector w))
    (typeB1 : b1.getType = some (.bitVector w))
    (factors : OddFactors w (mkDiff a0 a1) (mkDiff b0 b1) ca cb)
    : RelationsAgree (mkNode .equal [a0, a1]) (mkNode .equal [b0, b1]) ca cb := by
  obtain ⟨za, zb, rfl, rfl, oddA, oddB⟩ := factors.isInt
  have nonzero {z : Int} (odd : Odd z) : (z : Rat) ≠ 0 := by
    rintro isZero
    rw [Int.cast_eq_zero.mp isZero] at odd
    exact absurd odd (by decide)
  -- The values of the sides, and the difference between the multiples.
  have values (I : Interpretation) : ∃ x0 x1 y0 y1 z : Int, a0.eval I = .ofInt w x0
      ∧ a1.eval I = .ofInt w x1 ∧ b0.eval I = .ofInt w y0 ∧ b1.eval I = .ofInt w y1
      ∧ za * (x0 - x1) = zb * (y0 - y1) + 2 ^ w * z := by
    obtain ⟨x0, valueA0, evalA0⟩ := (hasPolyValue I a0 _ typeA0).bitVector w rfl
    obtain ⟨x1, valueA1, evalA1⟩ := (hasPolyValue I a1 _ typeA1).bitVector w rfl
    obtain ⟨y0, valueB0, evalB0⟩ := (hasPolyValue I b0 _ typeB0).bitVector w rfl
    obtain ⟨y1, valueB1, evalB1⟩ := (hasPolyValue I b1 _ typeB1).bitVector w rfl
    obtain ⟨z, scaled⟩ := factors.scaled I (mkDiff_mem typeA0 typeA1) (mkDiff_mem typeB0 typeB1)
    rw [evalAt_mkDiff I typeA0 typeA1, evalAt_mkDiff I typeB0 typeB1, valueA0, valueA1, valueB0, valueB1] at scaled
    exact ⟨x0, x1, y0, y1, z, evalA0, evalA1, evalB0, evalB1, by exact_mod_cast scaled⟩
  refine ⟨nonzero oddA, nonzero oddB, ?_, fun differs => absurd rfl differs, ?_, ?_⟩
  · intro n _ w' _
    simpa using ⟨oddA, oddB⟩
  · refine ⟨_, by simp only [getArithPolyNormRelPremise, children_mkNode, typeA0, typeB0]; rfl,
      fun I => ?_⟩
    obtain ⟨x0, x1, y0, y1, z, evalA0, evalA1, evalB0, evalB1, scaled⟩ := values I
    rw [satisfies_equal, eval_bitvectorProduct I (eval_constBitvector I w _)
        (eval_bitvectorDifference I evalA0 evalA1), eval_bitvectorProduct I
        (eval_constBitvector I w _) (eval_bitvectorDifference I evalB0 evalB1), ofInt_eq_iff_dvd]
    refine ⟨z, ?_⟩
    simp only [Rat.num_intCast]
    linarith
  · intro I
    obtain ⟨x0, x1, y0, y1, z, evalA0, evalA1, evalB0, evalB1, scaled⟩ := values I
    rw [satisfies_equal, satisfies_equal, evalA0, evalA1, evalB0, evalB1, ofInt_eq_iff_dvd,
      ofInt_eq_iff_dvd]
    exact dvd_iff_of_odd oddA oddB scaled

theorem factors_one (k : Kind) (p : PolyNorm) : Factors k p p 1 1 :=
  ⟨one_ne_zero, one_ne_zero, Or.inr rfl, fun _ => rfl, fun _ _ => ⟨⟨1, Int.cast_one.symm⟩, ⟨1, Int.cast_one.symm⟩⟩⟩

theorem oddFactors_one (w : Nat) (p : PolyNorm) : OddFactors w p p 1 1 :=
  ⟨⟨1, 1, by simp, by simp, odd_one, odd_one⟩, fun _ _ _ => ⟨0, by simp⟩⟩

/-- If `isArithPolyNormRel` returns true, then its factors are as promised. -/
theorem isArithPolyNormRel_spec {a b : Node} (atomA : IsAtom a) (atomB : IsAtom b)
    (found : isArithPolyNormRel a b = some (ca, cb))
    : RelationsAgree a b ca cb := by
  by_cases same : a = b
  · subst same
    obtain ⟨rfl, rfl⟩ : 1 = ca ∧ 1 = cb := by simpa [isArithPolyNormRel] using found
    cases atomA.sides with
    | arith k isRel left right t s leftType rightType leftArith rightArith _ =>
        exact relationsAgree_arith isRel leftType rightType leftType rightType leftArith rightArith
          leftArith rightArith (factors_one k _)
    | bitVector left right w leftType rightType =>
        exact relationsAgree_bitVector leftType rightType leftType rightType (oddFactors_one w _)
  · rw [isArithPolyNormRel, if_neg same] at found
    split at found
    · exact absurd found (by simp)
    · next sameKind =>
        have sameKind := not_not.mp sameKind
        cases atomA.sides with
        | arith k isRel left right t s leftType rightType leftArith rightArith sameType =>
            cases atomB.sides with
            | arith k' _ left' right' t' s' leftType' rightType' leftArith' rightArith' sameType' =>
                obtain rfl : k' = k := sameKind
                have factors : Factors k' (mkDiff left right) (mkDiff left' right') ca cb := by
                  refine arithFactors_spec ?_
                  by_cases isEquality : k' = .equal
                  · obtain rfl := sameType isEquality
                    obtain rfl := sameType' isEquality
                    subst isEquality
                    simpa [getKind_mkNode, sidesType, leftType, rightType, leftType', rightType',
                      TypeNode.leastUpperBound, leftArith, leftArith'] using found
                  · rcases relation_cases isRel with rfl | rfl | rfl | rfl | rfl
                    all_goals first
                      | exact absurd rfl isEquality
                      | simpa [getKind_mkNode] using found
                exact relationsAgree_arith isRel leftType rightType leftType' rightType' leftArith
                  rightArith leftArith' rightArith' factors
            | bitVector left' right' w leftType' rightType' =>
                obtain rfl : Kind.equal = k := sameKind
                obtain rfl := sameType rfl
                have notArith : (TypeNode.bitVector w).isRealOrInt = false := rfl
                simp [getKind_mkNode, sidesType, leftType, rightType, leftType', rightType',
                  TypeNode.leastUpperBound, leftArith, notArith] at found
        | bitVector left right w leftType rightType =>
            cases atomB.sides with
            | arith k' _ left' right' t' s' leftType' rightType' leftArith' rightArith' sameType' =>
                obtain rfl : k' = Kind.equal := sameKind
                obtain rfl := sameType' rfl
                have differs : TypeNode.bitVector w ≠ t' := by
                  rintro rfl
                  simp [TypeNode.isRealOrInt] at leftArith'
                simp [getKind_mkNode, sidesType, leftType, rightType, leftType', rightType',
                  TypeNode.leastUpperBound, TypeNode.isRealOrInt, differs] at found
            | bitVector left' right' w' leftType' rightType' =>
                obtain rfl : w = w' := by
                  by_contra differs
                  simp [getKind_mkNode, sidesType, leftType, rightType, leftType', rightType',
                    TypeNode.leastUpperBound, TypeNode.isRealOrInt, differs] at found
                have factors : OddFactors w (mkDiff left right) (mkDiff left' right') ca cb := by
                  refine bitVectorFactors_spec ?_
                  simpa [getKind_mkNode, sidesType, leftType, rightType, leftType', rightType',
                    TypeNode.leastUpperBound, TypeNode.isRealOrInt] using found
                exact relationsAgree_bitVector leftType rightType leftType' rightType' factors

end Relations

end Ava6.Arith.Poly
