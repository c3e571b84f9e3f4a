import Mathlib.Algebra.MvPolynomial.Supported
import Mathlib.Data.Finsupp.Multiset
import Mathlib.Data.Multiset.Sort
import Ava6.Arith.NodeTypes
import Ava6.Arith.Poly.PolyNormAt

/-! Normal forms are polynomials over the nodes that normalization does not look into: two of them are
equal if and only if the polynomials are.
-/

namespace Ava6.Arith.Poly

open Library MvPolynomial

variable [LinearOrder Node]

namespace MonoVar

/-- How often each node occurs in a monomial variable. -/
noncomputable def exponents (x : MonoVar) : Node →₀ ℕ := Multiset.toFinsupp (x.vars : Multiset Node)

theorem exponents_injective : Function.Injective exponents := by
  intro x y same
  have perm : x.vars.Perm y.vars := Multiset.coe_eq_coe.mp (Multiset.toFinsupp.injective same)
  exact ext (perm.eq_of_pairwise (fun a b _ _ le ge => le_antisymm le ge) x.sorted y.sorted)

theorem evalAt_X (x : MonoVar) : x.evalAt (X : Node → MvPolynomial Node ℚ) = monomial x.exponents 1 := by
  rw [evalAt, exponents]
  induction x.vars with
  | nil => rfl
  | cons n rest ih =>
      rw [List.map_cons, List.prod_cons, ih, ← Multiset.cons_coe, ← Multiset.singleton_add, map_add,
        Multiset.toFinsupp_singleton, X, monomial_mul, one_mul]

theorem exponents_surjective : Function.Surjective exponents := by
  intro m
  refine ⟨⟨(Finsupp.toMultiset m).sort (· ≤ ·), Multiset.pairwise_sort ..⟩, ?_⟩
  rw [exponents, Multiset.sort_eq, Finsupp.toMultiset_toFinsupp]

end MonoVar

variable [LinearOrder MonoVar]

namespace PolyNorm

variable {p q : PolyNorm}

noncomputable def toPolynomial (p : PolyNorm) : MvPolynomial Node ℚ := p.evalAt X

/-- The coefficient of a monomial, zero if it is not there. -/
def coefficient (p : PolyNorm) (x : MonoVar) : Rat := (p.monomials.find? x).getD 0

omit [LinearOrder MonoVar] in
theorem monomialAt_X (x : MonoVar) (c : Rat)
    : monomialAt (X : Node → MvPolynomial Node ℚ) x c = monomial x.exponents c := by
  rw [monomialAt, MonoVar.evalAt_X, algebraMap_eq, C_mul_monomial, mul_one]

omit [LinearOrder MonoVar] in
theorem coeff_entriesAt (entries : List (MonoVar × Rat)) (distinct : (entries.map Prod.fst).Nodup)
    (x : MonoVar) [DecidableEq MonoVar]
    : coeff x.exponents (entriesAt X entries)
      = ((entries.find? (fun m => decide (m.1 = x))).map Prod.snd).getD 0 := by
  induction entries with
  | nil => simp [entriesAt]
  | cons m rest ih =>
      rw [List.map_cons, List.nodup_cons] at distinct
      rw [entriesAt_cons, coeff_add, ih distinct.2, monomialAt_X, coeff_monomial, List.find?_cons]
      by_cases same : m.1 = x
      · have notLater : rest.find? (fun m => decide (m.1 = x)) = none := by
          refine List.find?_eq_none.mpr (fun m' member isSame => distinct.1 ?_)
          rw [same, ← of_decide_eq_true isSame]
          exact List.mem_map_of_mem member
        simp [same, notLater]
      · have differs : m.1.exponents ≠ x.exponents := fun isSame => same (MonoVar.exponents_injective isSame)
        simp [same, differs]

theorem coeff_toPolynomial (p : PolyNorm) (x : MonoVar)
    : coeff x.exponents p.toPolynomial = p.coefficient x := by
  rw [toPolynomial, evalAt_eq_entriesAt, coeff_entriesAt _ p.monomials.keys_nodup]
  rfl

theorem mem_entries {x : MonoVar} {c : Rat} : (x, c) ∈ p.monomials.entries ↔ p.coefficient x = c ∧ c ≠ 0 := by
  rw [← OrderedMap.find?_eq_some, coefficient]
  constructor
  · intro found
    exact ⟨by rw [found, Option.getD_some], p.nonzero (x, c) (OrderedMap.find?_eq_some.mp found)⟩
  · rintro ⟨isValue, differs⟩
    cases found : p.monomials.find? x with
    | none =>
        rw [found] at isValue
        exact absurd isValue.symm differs
    | some c' =>
        rw [found] at isValue
        exact congrArg some isValue

/-- Normal forms are determined by their polynomials, since the entries are sorted and their coefficients not zero. -/
theorem toPolynomial_inj : p.toPolynomial = q.toPolynomial ↔ p = q := by
  refine ⟨fun same => ?_, congrArg toPolynomial⟩
  have sameMembers (m : MonoVar × Rat) : m ∈ p.monomials.entries ↔ m ∈ q.monomials.entries := by
    obtain ⟨x, c⟩ := m
    rw [mem_entries, mem_entries, ← coeff_toPolynomial, ← coeff_toPolynomial, same]
  have perm := (List.perm_ext_iff_of_nodup p.monomials.entries_nodup q.monomials.entries_nodup).mpr sameMembers
  have sameEntries : p.monomials.entries = q.monomials.entries :=
    perm.eq_of_pairwise (fun _ _ _ _ less more => absurd more (lt_asymm less)) p.monomials.sorted q.monomials.sorted
  obtain ⟨monomials, nonzero⟩ := p
  obtain ⟨monomials', nonzero'⟩ := q
  obtain rfl := OrderedMap.ext sameEntries
  rfl

theorem toPolynomial_eq_iff : p.toPolynomial = q.toPolynomial ↔ ∀ x, p.coefficient x = q.coefficient x := by
  constructor
  · intro same x
    rw [← coeff_toPolynomial, ← coeff_toPolynomial, same]
  · intro same
    ext m
    obtain ⟨x, rfl⟩ := MonoVar.exponents_surjective m
    rw [coeff_toPolynomial, coeff_toPolynomial, same x]

theorem isEqual_iff : p.isEqual q = true ↔ p = q := by
  refine ⟨fun equal => toPolynomial_inj.mp (evalAt_of_isEqual X equal), fun same => ?_⟩
  rw [← same, isEqual, beq_self_eq_true, Bool.true_and, List.all_eq_true]
  exact fun m member => beq_iff_eq.mpr (OrderedMap.find?_eq_some.mpr member)

theorem coefficient_modCoeffs (p : PolyNorm) (c : Nat) (x : MonoVar)
    : (p.modCoeffs c).coefficient x = (((p.coefficient x).num % c : Int) : Rat) := by
  have mem_mod (v : Rat) : (x, v) ∈ (p.modCoeffs c).monomials.entries
      ↔ v ≠ 0 ∧ ∃ old, (x, old) ∈ p.monomials.entries ∧ ((old.num % c : Int) : Rat) = v := by
    simp [modCoeffs, OrderedMap.filter, OrderedMap.mapValues, and_comm]
  by_cases isZero : (((p.coefficient x).num % c : Int) : Rat) = 0
  · rw [isZero]
    by_contra differs
    obtain ⟨-, old, isOld, isNew⟩ := (mem_mod _).mp (mem_entries.mpr ⟨rfl, differs⟩)
    rw [← (mem_entries.mp isOld).1, isZero] at isNew
    exact differs isNew.symm
  · have isOld : (x, p.coefficient x) ∈ p.monomials.entries := by
      refine mem_entries.mpr ⟨rfl, fun none => isZero ?_⟩
      rw [none, Rat.num_zero, Int.zero_emod, Int.cast_zero]
    exact (mem_entries.mp ((mem_mod _).mpr ⟨isZero, _, isOld, rfl⟩)).1

/-- Bit-vectors are compared by their coefficients modulo a power of two. -/
theorem areEqualPolyNormTyped_bitVector (w : Nat)
    : areEqualPolyNormTyped (.bitVector w) p q = true
      ↔ ∀ x, (p.coefficient x).num % 2 ^ w = (q.coefficient x).num % 2 ^ w := by
  rw [areEqualPolyNormTyped, isEqual_iff, ← toPolynomial_inj, toPolynomial_eq_iff]
  refine forall_congr' (fun x => ?_)
  rw [coefficient_modCoeffs, coefficient_modCoeffs, Int.cast_inj, Nat.cast_pow, Nat.cast_ofNat]

end PolyNorm

section Polynomials

omit [LinearOrder Node] [LinearOrder MonoVar]

/-- The polynomial of an application from those of its children. Conversions to reals are ignored, and
divisions by a constant other than zero are multiplications. -/
noncomputable def applyPolynomials (k : Kind) (children : List Node) (ps : List (MvPolynomial Node ℚ))
    : MvPolynomial Node ℚ :=
  match k, ps with
  | .add, ps | .bitvectorAdd, ps => ps.sum
  | .mult, ps | .nonlinearMult, ps | .bitvectorMult, ps => ps.prod
  | .toReal, [p] => p
  | .sub, [p, q] | .bitvectorSub, [p, q] => p - q
  | .neg, [p] | .bitvectorNeg, [p] => -p
  | .division, [p, _] | .divisionTotal, [p, _] =>
      match PolyNorm.constantDivisor k children with
      | some c => p * C c⁻¹
      | none => X (mkNode k children)
  | k, _ => X (mkNode k children)

mutual

/-- The polynomial that a node is, over the nodes that are no sums, products and the like. -/
noncomputable def polynomial : Node → MvPolynomial Node ℚ
  | .constInteger value => C (value : ℚ)
  | .constRational value => C value
  | .constBitvector _ value => C (value.toNat : ℚ)
  | .var type name => X (.var type name)
  | .apply k children => applyPolynomials k children.toList (polynomials children)

noncomputable def polynomials : Nodes → List (MvPolynomial Node ℚ)
  | .nil => []
  | .cons head tail => polynomial head :: polynomials tail

end

theorem polynomials_eq (children : Nodes) : polynomials children = children.toList.map polynomial := by
  match children with
  | .nil => rfl
  | .cons head tail => rw [polynomials, polynomials_eq tail, Nodes.toList, List.map_cons]

end Polynomials

open PolyNorm

-- The nodes that have a type

/-- The value of a constant. -/
def polyConstant : Node → Option Rat
  | .constInteger value => some value
  | .constRational value => some value
  | .constBitvector _ value => some value.toNat
  | _ => none

/-- A node that is not looked into. -/
structure IsLeaf (n : Node) : Prop where
  notConstant : polyConstant n = none
  notCombined : Kind.isCombination n.getKind = false
  noDivisor : constantDivisor n.getKind n.children = none

/-- The numbers of children that an operator polynomials are combined by is applied to. -/
def Combines (k : Kind) (n : Nat) : Prop :=
  match k with
  | .add | .mult | .nonlinearMult | .bitvectorAdd | .bitvectorMult => 0 < n
  | .sub | .bitvectorSub => n = 2
  | .neg | .toReal | .bitvectorNeg => n = 1
  | _ => False

def Kind.ofBitVectors : Kind → Bool
  | .bitvectorAdd | .bitvectorMult | .bitvectorSub | .bitvectorNeg => true
  | _ => false

section Typed

omit [LinearOrder Node] [LinearOrder MonoVar]

variable {k : Kind} {types : List TypeNode} {t : TypeNode}

/-- What the type of an application says about the types of its children, where polynomials are combined. -/
theorem computeType_combination (isCombination : Kind.isCombination k = true) (computed : k.computeType types = some t)
    : Combines k types.length ∧ (∀ s ∈ types, SubtermType t s)
      ∧ (if Kind.ofBitVectors k then t.isBitVector else t.isRealOrInt) = true := by
  have ofBitVectors {least : Nat} (same : bitVectorType least types = some t)
      : 0 < types.length ∧ (∀ s ∈ types, SubtermType t s) ∧ t.isBitVector = true := by
    obtain ⟨w, rfl, nonempty, all⟩ := bitVectorType_eq_some same
    exact ⟨List.length_pos_iff.mpr nonempty, fun s member => all s member ▸ .refl _, rfl⟩
  have ofNumbers (areArith : ∀ s ∈ types, s.isRealOrInt = true)
      (chosen : (if types.all (· == .int) then TypeNode.int else .real) = t)
      : (∀ s ∈ types, SubtermType t s) ∧ t.isRealOrInt = true := by
    split at chosen
    · next all =>
        refine ⟨fun s member => ?_, by rw [← chosen]; rfl⟩
        rw [← chosen, beq_iff_eq.mp (List.all_eq_true.mp all s member)]
        exact .refl _
    · exact ⟨fun s member => chosen ▸ subtermType_real (areArith s member), by rw [← chosen]; rfl⟩
  cases k with
  | add | mult | nonlinearMult =>
      simp only [Kind.computeType, Option.ite_none_right_eq_some, Option.some.injEq] at computed
      exact ⟨by simp only [Combines]; omega, ofNumbers (List.all_eq_true.mp computed.1.2) computed.2⟩
  | bitvectorAdd | bitvectorMult => exact ofBitVectors computed
  | sub =>
      rcases types with _ | ⟨a, _ | ⟨b, _ | _⟩⟩
      case cons.cons.nil =>
        simp only [Kind.computeType, Option.ite_none_right_eq_some, Option.some.injEq, Bool.and_eq_true] at computed
        exact ⟨rfl, ofNumbers (by simpa using computed.1) (by simpa using computed.2)⟩
      all_goals cases computed
  | neg =>
      rcases types with _ | ⟨a, _ | _⟩
      case cons.nil =>
        simp only [Kind.computeType, Option.ite_none_right_eq_some, Option.some.injEq] at computed
        obtain ⟨isArith, rfl⟩ := computed
        exact ⟨rfl, by simpa using SubtermType.refl a, isArith⟩
      all_goals cases computed
  | toReal =>
      rcases types with _ | ⟨a, _ | _⟩
      case cons.nil =>
        simp only [Kind.computeType, Option.ite_none_right_eq_some, Option.some.injEq] at computed
        obtain ⟨isArith, rfl⟩ := computed
        exact ⟨rfl, by simpa using subtermType_real isArith, rfl⟩
      all_goals cases computed
  | bitvectorSub =>
      rcases types with _ | ⟨a, _ | ⟨b, _ | _⟩⟩
      case cons.cons.nil => exact ⟨rfl, (ofBitVectors computed).2⟩
      all_goals cases computed
  | bitvectorNeg =>
      rcases types with _ | ⟨a, _ | _⟩
      case cons.nil => exact ⟨rfl, (ofBitVectors computed).2⟩
      all_goals cases computed
  | _ => cases isCombination

/-- Induction over the nodes that have a type: constants, nodes that are not looked into, applications that polynomials
are combined by, and divisions by constants.
-/
theorem polyInduction {M : Node → TypeNode → Prop}
    (constant : ∀ n c t, polyConstant n = some c → n.getType = some t → M n t)
    (leaf : ∀ n t, IsLeaf n → n.getType = some t → M n t)
    (combination : ∀ k children types t, Kind.isCombination k = true → k.computeType types = some t
      → List.Forall₂ M children types → M (mkNode k children) t)
    (division : ∀ k x y c s, k = .division ∨ k = .divisionTotal → y.getConst = some c → c ≠ 0
      → s.isRealOrInt = true → M x s → M (mkNode k [x, y]) .real)
    (n : Node) (t : TypeNode) (typed : n.getType = some t)
    : M n t := by
  induction n using Node.induction generalizing t with
  | var type name => exact leaf _ t ⟨rfl, rfl, rfl⟩ typed
  | constInteger value => exact constant _ _ t rfl typed
  | constRational value => exact constant _ _ t rfl typed
  | constBitvector width value => exact constant _ _ t rfl typed
  | apply k children ih =>
      obtain ⟨types, ofChildren, computed⟩ := Node.getType_apply typed
      have below := forall₂_imp_mem ofChildren (fun n member s typed => ih n member s typed)
      have isNode : Node.apply k children = mkNode k children.toList := by rw [mkNode, Nodes.ofList_toList]
      by_cases isCombination : Kind.isCombination k = true
      · rw [isNode]
        exact combination k _ types t isCombination computed below
      · cases isDivisor : constantDivisor k children.toList with
        | none => exact leaf _ t ⟨rfl, eq_false_of_ne_true isCombination, isDivisor⟩ typed
        | some c =>
            unfold constantDivisor at isDivisor
            split at isDivisor
            · next x y isPair =>
                split at isDivisor
                · next isDivision =>
                    obtain ⟨isConst, differs⟩ := Option.filter_eq_some_iff.mp isDivisor
                    rw [isPair] at isNode below
                    rw [isNode]
                    obtain ⟨s, r, rfl, ofX, -⟩ := forall₂_pair below.flip
                    have isReal : s.isRealOrInt = true ∧ t = .real := by
                      rcases isDivision with rfl | rfl <;>
                        simp only [Kind.computeType, Option.ite_none_right_eq_some, Option.some.injEq,
                          Bool.and_eq_true] at computed <;>
                        exact ⟨computed.1.1, computed.2.symm⟩
                    obtain ⟨isArith, rfl⟩ := isReal
                    exact division k x y c s isDivision isConst (by simpa using differs) isArith ofX
                · cases isDivisor
            · cases isDivisor

end Typed

section Cases

omit [LinearOrder Node] [LinearOrder MonoVar]

variable {n x y : Node} {k : Kind} {c : Rat}

theorem polynomial_constant (isConstant : polyConstant n = some c) : polynomial n = C c := by
  cases n with
  | constInteger _ | constRational _ | constBitvector _ _ =>
      obtain rfl := Option.some.inj isConstant
      exact polynomial.eq_def _
  | var _ _ | apply _ _ => cases isConstant

theorem polynomial_leaf (isLeaf : IsLeaf n) : polynomial n = X n := by
  obtain ⟨notConstant, notCombined, noDivisor⟩ := isLeaf
  cases n with
  | var type name => rw [polynomial]
  | constInteger _ | constRational _ | constBitvector _ _ => cases notConstant
  | apply k children =>
      rw [polynomial]
      simp only [Node.getKind, Node.children] at notCombined noDivisor
      unfold applyPolynomials
      split <;> simp_all [Kind.isCombination, mkNode, Nodes.ofList_toList]

theorem applyPolynomials_eq {ps : List (MvPolynomial Node ℚ)} (combines : Combines k ps.length) (children : List Node)
    : applyPolynomials k children ps = combineAt k 0 0 ps := by
  cases k with
  | add | bitvectorAdd => exact ((combineAt_sum (by simp) 0 0 ps).trans (zero_add _)).symm
  | mult | nonlinearMult | bitvectorMult =>
      obtain ⟨p, rest, rfl⟩ := List.exists_cons_of_length_pos combines
      exact (combineAt_mult (by simp) p rest).symm
  | sub | bitvectorSub =>
      obtain ⟨p, q, rfl⟩ := List.length_eq_two.mp combines
      exact (combineAt_sub (by simp) p q).symm
  | neg | bitvectorNeg =>
      obtain ⟨p, rfl⟩ := List.length_eq_one_iff.mp combines
      exact (combineAt_neg (by simp) p).symm
  | toReal =>
      obtain ⟨p, rfl⟩ := List.length_eq_one_iff.mp combines
      rw [combineAt_sum (by simp), List.sum_singleton, zero_add]
      rfl
  | _ => exact combines.elim

theorem polynomial_combination {children : List Node} (combines : Combines k children.length)
    : polynomial (mkNode k children) = combineAt k 0 0 (children.map polynomial) := by
  rw [mkNode, polynomial, polynomials_eq, Nodes.toList_ofList, applyPolynomials_eq (by rwa [List.length_map])]

theorem constantDivisor_eq (isDivision : k = .division ∨ k = .divisionTotal) (isConst : y.getConst = some c) (differs : c ≠ 0)
    : constantDivisor k [x, y] = some c := by
  simp [constantDivisor, isDivision, isConst, differs]

theorem polynomial_division (isDivision : k = .division ∨ k = .divisionTotal) (isConst : y.getConst = some c)
    (differs : c ≠ 0)
    : polynomial (mkNode k [x, y]) = polynomial x * C c⁻¹ := by
  have isDivisor := constantDivisor_eq (x := x) isDivision isConst differs
  rw [mkNode, polynomial, polynomials_eq, Nodes.toList_ofList]
  rcases isDivision with rfl | rfl <;> simp only [applyPolynomials, List.map_cons, List.map_nil, isDivisor]

end Cases

theorem mkPolyNorms_eq (children : Nodes) : mkPolyNorms children = children.toList.map mkPolyNorm := by
  match children with
  | .nil => rfl
  | .cons head tail => rw [mkPolyNorms, mkPolyNorms_eq tail, Nodes.toList, List.map_cons]

theorem mkPolyNorm_leaf {n : Node} (isLeaf : IsLeaf n) : mkPolyNorm n = leaf n := by
  obtain ⟨notConstant, notCombined, noDivisor⟩ := isLeaf
  cases n with
  | var type name => rw [mkPolyNorm]
  | constInteger _ | constRational _ | constBitvector _ _ => cases notConstant
  | apply k children =>
      simp only [Node.getKind, Node.children] at notCombined noDivisor
      have same : mkNode k children.toList = .apply k children := by rw [mkNode, Nodes.ofList_toList]
      rw [mkPolyNorm]
      simp [ofChildren, notCombined, noDivisor, same]

theorem toPolynomial_leaf (n : Node) : (leaf n).toPolynomial = X n := evalAt_leaf X n

/-- The normal form of a node is the polynomial it is. -/
theorem toPolynomial_mkPolyNorm (n : Node) (t : TypeNode) (typed : n.getType = some t)
    : (mkPolyNorm n).toPolynomial = polynomial n := by
  refine polyInduction (M := fun n _ => (mkPolyNorm n).toPolynomial = polynomial n) ?_ ?_ ?_ ?_ n t typed
  · intro n c t isConstant _
    rw [polynomial_constant isConstant]
    cases n with
    | constInteger _ | constRational _ | constBitvector _ _ =>
        obtain rfl := Option.some.inj isConstant
        exact evalAt_constant X _
    | var _ _ | apply _ _ => cases isConstant
  · intro n t isLeaf _
    rw [polynomial_leaf isLeaf, mkPolyNorm_leaf isLeaf, toPolynomial_leaf]
  · intro k children types t isCombination computed same
    have combines := (computeType_combination isCombination computed).1
    rw [← same.length_eq] at combines
    rw [polynomial_combination combines, ← forall₂_map_eq same, mkNode, mkPolyNorm]
    unfold ofChildren
    rw [if_pos isCombination, toPolynomial, evalAt_combine, mkPolyNorms_eq, Nodes.toList_ofList, List.map_map,
      evalAt_zero]
    rfl
  · intro k x y c s isDivision isConst differs _ same
    have notCombined : ¬Kind.isCombination k = true := by rcases isDivision with rfl | rfl <;> decide
    rw [polynomial_division isDivision isConst differs, ← same, mkNode, mkPolyNorm]
    unfold ofChildren
    rw [if_neg notCombined, Nodes.toList_ofList, constantDivisor_eq isDivision isConst differs, mkPolyNorms_eq,
      Nodes.toList_ofList, List.map_cons]
    dsimp only
    rw [toPolynomial, evalAt_multiplyMonomial, evalAt_add, evalAt_zero, zero_add, monomialAt, MonoVar.evalAt_null,
      mul_one, algebraMap_eq]
    rfl

-- The polynomials of terms of a type

section Subrings

omit [LinearOrder Node] [LinearOrder MonoVar]

variable {t s : TypeNode}

/-- The nodes that the polynomials of terms of a type are over. -/
def polyVariables (t : TypeNode) : Set Node := { v | IsLeaf v ∧ ∃ s, v.getType = some s ∧ SubtermType t s }

/-- Polynomials over these nodes, with integers as coefficients for integral types. -/
noncomputable def typedPolynomials (t : TypeNode) : Subring (MvPolynomial Node ℚ) :=
  (supported ℚ (polyVariables t)).toSubring ⊓ if t.isIntegral then (map (Int.castRingHom ℚ)).range else ⊤

theorem typedPolynomials_mono (isSubterm : SubtermType t s) : typedPolynomials s ≤ typedPolynomials t := by
  by_cases isIntegral : t.isIntegral = true
  · rw [isSubterm.integral isIntegral]
  · unfold typedPolynomials
    rw [if_neg isIntegral]
    refine inf_le_inf (supported_mono fun v isVariable => ?_) le_top
    obtain ⟨isLeaf, r, typed, isBelow⟩ := isVariable
    exact ⟨isLeaf, r, typed, isSubterm.trans isBelow⟩

theorem C_mem_typedPolynomials {c : Rat} (integral : t.isIntegral = true → ∃ z : Int, c = z) : C c ∈ typedPolynomials t := by
  refine ⟨Subalgebra.algebraMap_mem _ c, ?_⟩
  split
  · next isIntegral =>
      obtain ⟨z, rfl⟩ := integral isIntegral
      exact ⟨C z, map_C _ z⟩
  · trivial

/-- The polynomial of a term is over nodes that are not looked into, by induction on the term. -/
theorem polynomial_mem (n : Node) (t : TypeNode) (typed : n.getType = some t) : polynomial n ∈ typedPolynomials t := by
  refine polyInduction (M := fun n t => polynomial n ∈ typedPolynomials t) ?_ ?_ ?_ ?_ n t typed
  · intro n c t isConstant typed
    rw [polynomial_constant isConstant]
    refine C_mem_typedPolynomials fun isIntegral => ?_
    cases n with
    | constInteger value => exact ⟨value, (Option.some.inj isConstant).symm⟩
    | constBitvector width value => exact ⟨value.toNat, by rw [← Option.some.inj isConstant, Int.cast_natCast]⟩
    | constRational value =>
        obtain rfl := Option.some.inj typed
        cases isIntegral
    | var _ _ | apply _ _ => cases isConstant
  · intro n t isLeaf typed
    rw [polynomial_leaf isLeaf]
    refine ⟨X_mem_supported.mpr ⟨isLeaf, t, typed, .refl t⟩, ?_⟩
    split
    · exact ⟨X n, map_X _ n⟩
    · trivial
  · intro k children types t isCombination computed below
    obtain ⟨combines, areSubterms, -⟩ := computeType_combination isCombination computed
    rw [polynomial_combination (by rwa [below.length_eq])]
    refine combineAt_mem (typedPolynomials t) k 0 (Subring.zero_mem _) fun p isPolynomial => ?_
    obtain ⟨child, isChild, rfl⟩ := List.mem_map.mp isPolynomial
    obtain ⟨s, isType, member⟩ := forall₂_exists below isChild
    exact typedPolynomials_mono (areSubterms s isType) member
  · intro k x y c s isDivision isConst differs isArith member
    rw [polynomial_division isDivision isConst differs]
    exact mul_mem (typedPolynomials_mono (subtermType_real isArith) member) (C_mem_typedPolynomials fun isIntegral => by
      cases isIntegral)

end Subrings

section Entries

variable {p : PolyNorm} {t : TypeNode}

theorem exists_coefficient (member : p.toPolynomial ∈ typedPolynomials t) (isIntegral : t.isIntegral = true) (x : MonoVar)
    : ∃ z : Int, p.coefficient x = z := by
  have inRange := member.2
  rw [if_pos isIntegral] at inRange
  obtain ⟨q, isPolynomial⟩ := inRange
  rw [← coeff_toPolynomial, ← isPolynomial, coeff_map]
  exact ⟨_, rfl⟩

theorem mem_polyVariables (member : p.toPolynomial ∈ typedPolynomials t) {x : MonoVar} {c : Rat}
    (isEntry : (x, c) ∈ p.monomials.entries)
    : ∀ v ∈ x.vars, v ∈ polyVariables t := by
  intro v isVariable
  obtain ⟨rfl, differs⟩ := mem_entries.mp isEntry
  rw [← coeff_toPolynomial] at differs
  refine mem_supported.mp member.1 (Finset.mem_coe.mpr (mem_vars_iff_mem_support v |>.mpr ⟨_, mem_support_iff.mpr differs, ?_⟩))
  simpa [MonoVar.exponents] using isVariable

end Entries

variable {a b : Node} {t s : TypeNode}

/-- Arithmetic terms are compared as polynomials. -/
theorem isArithPolyNorm_arith (typeA : a.getType = some t) (typeB : b.getType = some s)
    (isArith : t.isRealOrInt = true)
    : isArithPolyNorm a b = true ↔ polynomial a = polynomial b := by
  have isTyped : areEqualPolyNormTyped t (mkPolyNorm a) (mkPolyNorm b)
      = (mkPolyNorm a).isEqual (mkPolyNorm b) := by
    cases t with
    | int | real => rfl
    | bool | bitVector _ | other _ => cases isArith
  simp only [isArithPolyNorm, typeA, Option.any_some, isTyped, decide_eq_true_eq]
  rw [isEqual_iff, ← toPolynomial_inj, toPolynomial_mkPolyNorm a t typeA, toPolynomial_mkPolyNorm b s typeB]
  exact ⟨fun either => either.elim (congrArg polynomial) id, Or.inr⟩

theorem coefficient_integral {w : Nat} (typeA : a.getType = some (.bitVector w)) (x : MonoVar)
    : (((mkPolyNorm a).coefficient x).num : ℚ) = (mkPolyNorm a).coefficient x := by
  have member := polynomial_mem a _ typeA
  rw [← toPolynomial_mkPolyNorm a _ typeA] at member
  obtain ⟨z, isInteger⟩ := exists_coefficient member rfl x
  rw [isInteger, Rat.num_intCast]

/-- Bit-vector terms are compared as polynomials modulo two to the width. -/
theorem isArithPolyNorm_bitVector {w : Nat} (typeA : a.getType = some (.bitVector w))
    (typeB : b.getType = some (.bitVector w))
    : isArithPolyNorm a b = true
      ↔ ∀ m, ∃ z : ℤ, coeff m (polynomial a) - coeff m (polynomial b) = 2 ^ w * z := by
  have compared : isArithPolyNorm a b = true
      ↔ areEqualPolyNormTyped (.bitVector w) (mkPolyNorm a) (mkPolyNorm b) = true := by
    simp only [isArithPolyNorm, typeA, Option.any_some, decide_eq_true_eq]
    refine ⟨fun either => either.elim (fun same => ?_) id, Or.inr⟩
    rw [same, areEqualPolyNormTyped_bitVector]
    exact fun _ => rfl
  rw [compared, areEqualPolyNormTyped_bitVector, MonoVar.exponents_surjective.forall]
  refine forall_congr' (fun x => ?_)
  rw [← toPolynomial_mkPolyNorm a _ typeA, ← toPolynomial_mkPolyNorm b _ typeB, coeff_toPolynomial,
    coeff_toPolynomial, ← coefficient_integral typeA, ← coefficient_integral typeB,
    Int.emod_eq_emod_iff_emod_sub_eq_zero, ← Int.dvd_iff_emod_eq_zero]
  simp only [Rat.num_intCast]
  constructor
  · rintro ⟨z, isMultiple⟩
    exact ⟨z, by exact_mod_cast isMultiple⟩
  · rintro ⟨z, isMultiple⟩
    exact ⟨z, by exact_mod_cast isMultiple⟩

end Ava6.Arith.Poly
