import Mathlib.SetTheory.Cardinal.Order
import Ava6.Arith.Poly.PolyNormSound

/-! The proof rules for polynomial normalization. ARITH_POLY_NORM is sound; ARITH_POLY_NORM_REL is
sound exactly for premises whose sides are products of a constant and a difference.
-/

namespace Ava6.Arith.Poly

open PolyNorm

theorem eq_mkNode {n first : Node} {rest : List Node} (isChildren : n.children = first :: rest)
    : n = mkNode n.getKind (first :: rest) := by
  cases n with
  | apply k children => exact apply_eq_mkNode isChildren
  | var _ _ | constInteger _ | constRational _ | constBitvector _ _ =>
      simp [Node.children] at isChildren

/-- The sides of a well-sorted equality have the same type. -/
theorem types_of_equality {t s : Node} (typed : (mkNode .equal [t, s]).getType = some .bool)
    : ∃ r, t.getType = some r ∧ s.getType = some r := by
  obtain ⟨types, ofChildren, computed⟩ := Node.getType_apply typed
  rw [Nodes.toList_ofList] at ofChildren
  cases ofChildren with
  | cons first rest =>
      cases rest with
      | cons second none =>
          cases none
          refine ⟨_, first, ?_⟩
          simp only [Kind.computeType, TypeNode.leastUpperBound] at computed
          split at computed
          · next same => rwa [same]
          · exact absurd computed (by simp)

section PolyNormRule

variable [LinearOrder Node] [LinearOrder MonoVar]

theorem eval_of_isArithPolyNorm (I : Interpretation) {a b : Node} {t : TypeNode}
    (typeA : a.getType = some t) (typeB : b.getType = some t) (isArith : t.isRealOrInt = true)
    (accepted : isArithPolyNorm a b = true)
    : a.eval I = b.eval I := by
  rw [(hasPolyValue I a t typeA).arith isArith, (hasPolyValue I b t typeB).arith isArith, ← evalAt_mkPolyNorm I typeA,
    ← evalAt_mkPolyNorm I typeB]
  simp only [isArithPolyNorm, typeA, Option.any_some, decide_eq_true_eq] at accepted
  rcases accepted with same | equal
  · rw [same]
  · have isEqual : (mkPolyNorm a).isEqual (mkPolyNorm b) = true := by
      cases t with
      | int | real => exact equal
      | bool | bitVector _ | other _ => simp [TypeNode.isRealOrInt] at isArith
    exact congrArg Value.num (evalAt_of_isEqual (pointOf I) isEqual)

/-- The rule ARITH_POLY_NORM is sound. -/
theorem checkArithPolyNorm_sound {children args : List Node} {conclusion : Node}
    (typed : ∀ arg ∈ args, arg.getType = some .bool)
    (accepted : checkArithPolyNorm children args = some conclusion) (I : Interpretation)
    : I.Satisfies conclusion := by
  unfold checkArithPolyNorm at accepted
  split at accepted
  · next equality =>
      split at accepted
      · exact absurd accepted (by simp)
      · next isEquality =>
          split at accepted
          · next t s sides =>
              split at accepted
              · exact absurd accepted (by simp)
              · next isArith =>
                  split at accepted
                  · exact absurd accepted (by simp)
                  · next equal =>
                      obtain rfl := Option.some.inj accepted
                      rw [eq_mkNode sides, not_not.mp isEquality] at typed ⊢
                      obtain ⟨r, typeT, typeS⟩ := types_of_equality (typed _ List.mem_cons_self)
                      rw [typeT, Option.any_some, not_not] at isArith
                      rw [satisfies_equal]
                      exact eval_of_isArithPolyNorm I typeT typeS isArith (not_not.mp equal)
          · exact absurd accepted (by simp)
  · exact absurd accepted (by simp)

end PolyNormRule

-- ARITH_POLY_NORM_REL

/-- A product whose second factor is the difference of `x1` and `x2`, possibly below TO_REAL. -/
structure IsProduct (l multiplier x1 x2 : Node) (extras : List Node) : Prop where
  kind : l.getKind = .mult
  difference : ∃ second below rest, l.children = multiplier :: second :: extras
    ∧ belowToReal second = some below ∧ below.getKind = .sub ∧ below.children = x1 :: x2 :: rest

theorem relationFromProducts_spec {k : Kind} {l r conclusion : Node}
    (found : relationFromProducts k l r = some conclusion)
    : ∃ cx x1 x2 xs cy y1 y2 ys, IsProduct l cx x1 x2 xs ∧ IsProduct r cy y1 y2 ys
        ∧ multipliersAccepted k cx cy = true
        ∧ conclusion = mkNode .equal [mkNode k [x1, x2], mkNode k [y1, y2]] := by
  unfold relationFromProducts at found
  split at found
  · exact absurd found (by simp)
  · next kinds =>
      rw [not_or, not_not, not_not] at kinds
      split at found
      · next cx l1 xs cy r1 ys isLeft isRight =>
          simp only [Option.bind_eq_bind, Option.bind_eq_some_iff] at found
          obtain ⟨lr, leftBelow, rr, rightBelow, found⟩ := found
          split at found
          · exact absurd found (by simp)
          · next subs =>
              rw [not_or, not_not, not_not] at subs
              split at found
              · next x1 x2 xs' y1 y2 ys' isX isY =>
                  split at found
                  · next accepted =>
                      exact ⟨cx, x1, x2, xs, cy, y1, y2, ys,
                        ⟨kinds.1, l1, lr, xs', isLeft, leftBelow, subs.1, isX⟩,
                        ⟨kinds.2, r1, rr, ys', isRight, rightBelow, subs.2, isY⟩, accepted,
                        (Option.some.inj found).symm⟩
                  · exact absurd found (by simp)
              · exact absurd found (by simp)
      · exact absurd found (by simp)

theorem checkArithPolyNormRel_spec {child equivalence conclusion : Node}
    (found : checkArithPolyNormRel [child] [equivalence] = some conclusion)
    : ∃ left rest l r rest', equivalence.children = left :: rest ∧ isRelation left.getKind = true
        ∧ child.getKind = .equal ∧ child.children = l :: r :: rest' ∧ conclusion = equivalence
        ∧ relationFromProducts left.getKind l r = some conclusion := by
  simp only [checkArithPolyNormRel] at found
  split at found
  · exact absurd found (by simp)
  · split at found
    · next left rest l r rest' isLeft isProducts =>
        split at found
        · exact absurd found (by simp)
        · next accepted =>
            rw [not_or, not_not, not_not] at accepted
            simp only [Option.bind_eq_bind, Option.bind_eq_some_iff] at found
            obtain ⟨ret, isReturned, found⟩ := found
            split at found
            · exact absurd found (by simp)
            · next same =>
                obtain rfl := Option.some.inj found
                exact ⟨left, rest, l, r, rest', isLeft, accepted.1, accepted.2, isProducts,
                  not_not.mp same, isReturned⟩
    · exact absurd found (by simp)

/-- The type of an application determines the types of its children. -/
theorem types_of_mkNode {k : Kind} {nodes : List Node} {t : TypeNode}
    (typed : (mkNode k nodes).getType = some t)
    : ∃ types, List.Forall₂ (fun n t => n.getType = some t) nodes types
        ∧ k.computeType types = some t := by
  obtain ⟨types, ofChildren, computed⟩ := Node.getType_apply typed
  rw [Nodes.toList_ofList] at ofChildren
  exact ⟨types, ofChildren, computed⟩

theorem types_of_sub {nodes : List Node} {t : TypeNode}
    (typed : (mkNode .sub nodes).getType = some t)
    : ∃ x y r s, nodes = [x, y] ∧ x.getType = some r ∧ y.getType = some s
        ∧ r.isRealOrInt = true ∧ s.isRealOrInt = true := by
  obtain ⟨types, ofChildren, computed⟩ := types_of_mkNode typed
  match types with
  | [r, s] =>
      obtain ⟨x, y, isPair, typeX, typeY⟩ := forall₂_pair ofChildren
      simp only [Kind.computeType] at computed
      split at computed
      · next isArith =>
          rw [Bool.and_eq_true] at isArith
          exact ⟨x, y, r, s, isPair, typeX, typeY, isArith⟩
      · exact absurd computed (by simp)
  | [] | [_] | _ :: _ :: _ :: _ => simp [Kind.computeType] at computed

/-- TO_REAL keeps the value. -/
theorem belowToReal_spec {n below : Node} {t : TypeNode} (typed : n.getType = some t)
    (isBelow : belowToReal n = some below)
    : (∃ s, below.getType = some s)
      ∧ ∀ (I : Interpretation) p, below.eval I = .num p → n.eval I = .num p := by
  rw [belowToReal] at isBelow
  split at isBelow
  · next isToReal =>
      obtain ⟨rest, isChildren⟩ := List.head?_eq_some_iff.mp isBelow
      rw [eq_mkNode isChildren, isToReal] at typed ⊢
      obtain ⟨types, ofChildren, computed⟩ := types_of_mkNode typed
      match types with
      | [s] =>
          obtain ⟨x, isSingle, typeX⟩ := forall₂_single ofChildren
          obtain ⟨rfl, rfl⟩ : below = x ∧ rest = [] := by simpa using isSingle
          refine ⟨⟨s, typeX⟩, fun I p value => ?_⟩
          rw [eval_mkNode]
          simp [Kind.apply, value, Value.toReal]
      | [] | _ :: _ :: _ => simp [Kind.computeType] at computed
  · obtain rfl := Option.some.inj isBelow
    exact ⟨⟨t, typed⟩, fun _ _ value => value⟩

section Products

variable (I : Interpretation)

theorem eval_of_isRealOrInt {n : Node} {t : TypeNode} (typed : n.getType = some t)
    (isArith : t.isRealOrInt = true)
    : ∃ p, n.eval I = .num p :=
  ⟨_, (hasPolyValue I n t typed).arith isArith⟩

/-- The value of a well-sorted product. -/
theorem IsProduct.eval {l multiplier x1 x2 : Node} {extras : List Node} {t : TypeNode}
    (product : IsProduct l multiplier x1 x2 extras) (typed : l.getType = some t)
    : ∃ p q, x1.eval I = .num p ∧ x2.eval I = .num q
        ∧ l.eval I = .num ((multiplier.eval I).toReal * ((p - q)
          * (extras.map (fun n => (n.eval I).toReal)).prod)) := by
  obtain ⟨second, below, rest, isChildren, isBelow, isSub, isPair⟩ := product.difference
  rw [eq_mkNode isChildren, product.kind] at typed ⊢
  obtain ⟨types, ofFactors, -⟩ := types_of_mkNode typed
  obtain ⟨t2, -, typeSecond⟩ := forall₂_exists ofFactors
    (List.mem_cons_of_mem multiplier List.mem_cons_self)
  obtain ⟨⟨s, typeBelow⟩, sameValue⟩ := belowToReal_spec typeSecond isBelow
  rw [eq_mkNode isPair, isSub] at typeBelow
  obtain ⟨x, y, r, r', isTwo, typeX, typeY, arithX, arithY⟩ := types_of_sub typeBelow
  obtain ⟨rfl, rfl, rfl⟩ : x1 = x ∧ x2 = y ∧ rest = [] := by simpa using isTwo
  obtain ⟨p, valueX⟩ := eval_of_isRealOrInt I typeX arithX
  obtain ⟨q, valueY⟩ := eval_of_isRealOrInt I typeY arithY
  refine ⟨p, q, valueX, valueY, ?_⟩
  have valueBelow : below.eval I = .num (p - q) := by
    rw [eq_mkNode isPair, isSub, eval_difference I valueX valueY]
  have valueSecond : (second.eval I).toReal = p - q := by
    rw [sameValue I _ valueBelow]
    rfl
  rw [eval_mkNode, Kind.apply]
  simp only [List.map_cons, List.prod_cons, valueSecond, List.map_map, Function.comp_def]

end Products

-- Shapes of premises

/-- Whether the multiplier of a side is a constant, and the number of factors after the second. -/
structure SideShape where
  constant : Bool
  extras : Nat

/-- A side of the documented shape: a constant times a difference. -/
def SideShape.Documented (side : SideShape) : Prop := side.constant = true ∧ side.extras = 0

def sideShape (n : Node) : Option SideShape :=
  match n.getKind, n.children with
  | .mult, multiplier :: _ :: extras => some ⟨multiplier.getConst.isSome, extras.length⟩
  | _, _ => none

/-- The shapes of the two sides of a premise. -/
def premiseShape (child : Node) : Option (SideShape × SideShape) :=
  match child.getKind, child.children with
  | .equal, [l, r] => do return (← sideShape l, ← sideShape r)
  | _, _ => none

/-- The rule ARITH_POLY_NORM_REL is sound for a relation and a shape of the premise. -/
def SoundForShape (k : Kind) (left right : SideShape) : Prop :=
  ∀ child equivalence conclusion, child.getType = some .bool
    → premiseShape child = some (left, right)
    → (equivalence.children.head?.map Node.getKind) = some k
    → checkArithPolyNormRel [child] [equivalence] = some conclusion
    → ∀ I : Interpretation, I.Satisfies child → I.Satisfies conclusion

theorem IsProduct.shape {l multiplier x1 x2 : Node} {extras : List Node}
    (product : IsProduct l multiplier x1 x2 extras)
    : sideShape l = some ⟨multiplier.getConst.isSome, extras.length⟩ := by
  obtain ⟨second, below, rest, isChildren, -⟩ := product.difference
  rw [sideShape, product.kind, isChildren]

theorem accepted_of_constants {k : Kind} {cx cy : Node} {c1 c2 : Rat}
    (isLeft : cx.getConst = some c1) (isRight : cy.getConst = some c2)
    (accepted : multipliersAccepted k cx cy = true)
    : c1 ≠ 0 ∧ c2 ≠ 0 ∧ (k = .equal ∨ c1.num.sign = c2.num.sign) := by
  simp only [multipliersAccepted, isLeft, isRight, decide_eq_true_eq] at accepted
  obtain ⟨left, right, signs⟩ := accepted
  refine ⟨?_, ?_, signs⟩
  · rintro rfl
    exact left rfl
  · rintro rfl
    exact right rfl

theorem satisfies_equivalence (I : Interpretation) {a b : Node} {p q : Prop}
    (left : a.eval I = .bool p) (right : b.eval I = .bool q)
    : I.Satisfies (mkNode .equal [a, b]) ↔ (p ↔ q) := by
  rw [satisfies_equal, left, right]
  constructor
  · intro same
    exact iff_of_eq (Value.bool.inj same)
  · intro same
    rw [propext same]

theorem eval_relation (I : Interpretation) {k : Kind} {x y : Node} {p q : ℝ}
    (isRel : isRelation k = true) (left : x.eval I = .num p) (right : y.eval I = .num q)
    : (mkNode k [x, y]).eval I = .bool (relationHolds k (p - q)) := by
  rw [eval_mkNode, List.map_cons, List.map_cons, List.map_nil, left, right, apply_relation I isRel]

/-- For constant multipliers and no further factors the rule is sound. -/
theorem sound_of_documented {k : Kind} {left right : SideShape} (isLeft : left.Documented)
    (isRight : right.Documented)
    : SoundForShape k left right := by
  intro child equivalence conclusion typed shape kind found I satisfied
  obtain ⟨a, rest, l, r, rest', isA, isRel, isEquality, isSides, rfl, isProducts⟩ :=
    checkArithPolyNormRel_spec found
  obtain ⟨cx, x1, x2, xs, cy, y1, y2, ys, productL, productR, accepted, rfl⟩ :=
    relationFromProducts_spec isProducts
  rw [premiseShape, isEquality, isSides] at shape
  match rest' with
  | [] =>
      simp only [productL.shape, productR.shape, Option.bind_eq_bind, Option.bind_some,
        Option.pure_def, Option.some.injEq, Prod.mk.injEq] at shape
      obtain ⟨rfl, rfl⟩ := shape
      obtain ⟨c1, constantX⟩ := Option.isSome_iff_exists.mp isLeft.1
      obtain ⟨c2, constantY⟩ := Option.isSome_iff_exists.mp isRight.1
      obtain rfl := List.length_eq_zero_iff.mp isLeft.2
      obtain rfl := List.length_eq_zero_iff.mp isRight.2
      obtain ⟨c1_ne, c2_ne, signs⟩ := accepted_of_constants constantX constantY accepted
      rw [eq_mkNode isSides, isEquality] at typed satisfied
      obtain ⟨t, typeL, typeR⟩ := types_of_equality typed
      obtain ⟨p, q, valueX1, valueX2, valueL⟩ := productL.eval I typeL
      obtain ⟨p', q', valueY1, valueY2, valueR⟩ := productR.eval I typeR
      rw [satisfies_equal, valueL, valueR, eval_of_getConst I constantX,
        eval_of_getConst I constantY] at satisfied
      have scaled : (c1 : ℝ) * (p - q) = c2 * (p' - q') := by
        simpa [Value.toReal] using satisfied
      rw [satisfies_equivalence I (eval_relation I isRel valueX1 valueX2)
        (eval_relation I isRel valueY1 valueY2)]
      exact relationHolds_scale c1_ne c2_ne signs scaled
  | _ :: _ => simp at shape

/-- A side of a given shape, whose further factors are zero. -/
def sideNode (side : SideShape) (a b : Int) : Node :=
  mkNode .mult ((if side.constant then .constInteger 1 else .var .int 0)
    :: mkNode .sub [.constInteger a, .constInteger b]
    :: List.replicate side.extras (.constInteger 0))

theorem getTypes_ofList {nodes : List Node} (areInt : ∀ n ∈ nodes, n.getType = some .int)
    : (Nodes.ofList nodes).getTypes = some (List.replicate nodes.length .int) := by
  induction nodes with
  | nil => rfl
  | cons n rest ih =>
      simp [Nodes.ofList, Nodes.getTypes, areInt n List.mem_cons_self,
        ih (fun n' member => areInt n' (List.mem_cons_of_mem n member)), List.replicate_succ]

theorem getType_sideNode (side : SideShape) (a b : Int)
    : (sideNode side a b).getType = some .int := by
  have multiplier : (if side.constant then Node.constInteger 1 else .var .int 0).getType
      = some .int := by
    split <;> rfl
  rw [sideNode, mkNode, Node.getType, getTypes_ofList]
  · simp [Kind.computeType, List.replicate_succ, TypeNode.isRealOrInt]
  · intro n member
    simp only [List.mem_cons, List.mem_replicate] at member
    rcases member with rfl | rfl | ⟨-, rfl⟩
    · exact multiplier
    · rfl
    · rfl

theorem isProduct_sideNode (side : SideShape) (a b : Int)
    : IsProduct (sideNode side a b) (if side.constant then .constInteger 1 else .var .int 0)
        (.constInteger a) (.constInteger b) (List.replicate side.extras (.constInteger 0)) :=
  ⟨rfl, mkNode .sub [.constInteger a, .constInteger b], mkNode .sub [.constInteger a, .constInteger b],
    [], children_mkNode _ _, rfl, rfl, rfl⟩

theorem shape_sideNode (side : SideShape) (a b : Int) : sideShape (sideNode side a b) = some side := by
  rw [(isProduct_sideNode side a b).shape, List.length_replicate]
  cases side with
  | mk constant extras => cases constant <;> rfl

/-- Without the documented shape, or with equal terms, the product can be zero. -/
theorem eval_sideNode {side : SideShape} {a b : Int} (zero : ¬side.Documented ∨ a = b)
    : (sideNode side a b).eval zeros = .num 0 := by
  obtain ⟨p, q, valueA, valueB, value⟩ :=
    (isProduct_sideNode side a b).eval zeros (getType_sideNode side a b)
  rw [value]
  obtain rfl : (a : ℝ) = p := Value.num.inj valueA
  obtain rfl : (b : ℝ) = q := Value.num.inj valueB
  rcases zero with undocumented | same
  · by_cases isConstant : side.constant = true
    · have some : side.extras ≠ 0 := fun none => undocumented ⟨isConstant, none⟩
      have isZero : ((List.replicate side.extras (Node.constInteger 0)).map
          (fun n => (n.eval zeros).toReal)).prod = 0 := by
        rw [List.map_replicate, List.prod_replicate]
        simp [Node.eval, Value.toReal, some]
      rw [isZero, mul_zero, mul_zero]
    · rw [if_neg isConstant]
      simp [Node.eval, zeros, Value.default, Value.toReal]
  · rw [same, sub_self, zero_mul, mul_zero]

theorem accepted_sideNodes {k : Kind} (isRel : isRelation k = true) (left right : SideShape)
    (a b c d : Int)
    : checkArithPolyNormRel [mkNode .equal [sideNode left a b, sideNode right c d]]
        [mkNode .equal [mkNode k [.constInteger a, .constInteger b],
          mkNode k [.constInteger c, .constInteger d]]]
      = some (mkNode .equal [mkNode k [.constInteger a, .constInteger b],
          mkNode k [.constInteger c, .constInteger d]]) := by
  have multipliers : multipliersAccepted k (if left.constant then .constInteger 1 else .var .int 0)
      (if right.constant then .constInteger 1 else .var .int 0) = true := by
    cases left.constant <;> cases right.constant <;> simp [multipliersAccepted, Node.getConst]
  have related : relationFromProducts k (sideNode left a b) (sideNode right c d)
      = some (mkNode .equal [mkNode k [.constInteger a, .constInteger b],
          mkNode k [.constInteger c, .constInteger d]]) := by
    simp [relationFromProducts, sideNode, getKind_mkNode, belowToReal, multipliers]
  simp [checkArithPolyNormRel, getKind_mkNode, isRel, related]

/-- The premise holds where both products are zero, but the relations need not agree. -/
theorem unsound_of_zero_products {k : Kind} (isRel : isRelation k = true) {left right : SideShape}
    {a b c d : Int} (zeroL : ¬left.Documented ∨ a = b) (zeroR : ¬right.Documented ∨ c = d)
    (differ : ¬(relationHolds k (a - b) ↔ relationHolds k (c - d)))
    : ¬SoundForShape k left right := by
  intro sound
  have typed : (mkNode .equal [sideNode left a b, sideNode right c d]).getType = some .bool := by
    rw [getType_pair (getType_sideNode left a b) (getType_sideNode right c d)]
    rfl
  have shape : premiseShape (mkNode .equal [sideNode left a b, sideNode right c d])
      = some (left, right) := by
    simp [premiseShape, getKind_mkNode, shape_sideNode]
  have satisfied : zeros.Satisfies (mkNode .equal [sideNode left a b, sideNode right c d]) := by
    rw [satisfies_equal, eval_sideNode zeroL, eval_sideNode zeroR]
  have concluded := sound _ _ _ typed shape (by simp [getKind_mkNode])
    (accepted_sideNodes isRel left right a b c d) zeros satisfied
  rw [satisfies_equivalence zeros (eval_relation zeros isRel rfl rfl)
    (eval_relation zeros isRel rfl rfl)] at concluded
  exact differ concluded

/-- Two integers that are related otherwise than equal ones. -/
theorem exists_apart {k : Kind} (isRel : isRelation k = true)
    : ∃ a b : Int, ¬(relationHolds k ((a : ℝ) - b) ↔ relationHolds k 0) := by
  rcases relation_cases isRel with rfl | rfl | rfl | rfl | rfl
  · exact ⟨0, 1, by simp [relationHolds]⟩
  · exact ⟨1, 0, by simp [relationHolds]⟩
  · exact ⟨1, 0, by simp [relationHolds]⟩
  · exact ⟨1, 0, by simp [relationHolds]⟩
  · exact ⟨0, 1, by simp [relationHolds]⟩

/-- ARITH_POLY_NORM_REL is sound exactly for premises of the documented shape. -/
theorem soundForShape_iff {k : Kind} (isRel : isRelation k = true) (left right : SideShape)
    : SoundForShape k left right ↔ left.Documented ∧ right.Documented := by
  constructor
  · intro sound
    obtain ⟨a, b, apart⟩ := exists_apart isRel
    constructor
    · by_contra undocumented
      refine unsound_of_zero_products isRel (Or.inl undocumented) (Or.inr (rfl : (0 : Int) = 0)) ?_
        sound (a := a) (b := b)
      simpa using apart
    · by_contra undocumented
      refine unsound_of_zero_products isRel (Or.inr (rfl : (0 : Int) = 0)) (Or.inl undocumented) ?_
        sound (c := a) (d := b)
      intro agree
      exact apart (by simpa using agree.symm)
  · rintro ⟨isLeft, isRight⟩
    exact sound_of_documented isLeft isRight

section Orders

variable [LinearOrder Node] [LinearOrder MonoVar]

/-- Polynomial normalization steps are sound but for the shape of the premise of
ARITH_POLY_NORM_REL: for each relation that rule is sound exactly for the premises whose sides are
both a constant times a difference. The factors found for two relations are as promised.
-/
theorem polyNorm_steps_sound
    : (∀ children args conclusion, (∀ arg ∈ args, Node.getType arg = some .bool)
        → checkArithPolyNorm children args = some conclusion
        → ∀ I : Interpretation, I.Satisfies conclusion)
      ∧ (∀ k, isRelation k = true → ∀ left right,
        SoundForShape k left right ↔ left.Documented ∧ right.Documented)
      ∧ (∀ a b ca cb, IsAtom a → IsAtom b → isArithPolyNormRel a b = some (ca, cb)
        → RelationsAgree a b ca cb) :=
  ⟨fun _ _ _ typed accepted I => checkArithPolyNorm_sound typed accepted I,
    fun _ isRel left right => soundForShape_iff isRel left right,
    fun _ _ _ _ atomA atomB found => isArithPolyNormRel_spec atomA atomB found⟩

open Library

/-- Both sums are twice the variable. -/
theorem entries_double
    : (mkPolyNorm (mkNode .add [.var .int 0, .var .int 0])).monomials.entries = [(.single (.var .int 0), 2)]
      ∧ (mkPolyNorm (mkNode .mult [.constInteger 2, .var .int 0])).monomials.entries = [(.single (.var .int 0), 2)] := by
  constructor
  · simp [mkNode, mkPolyNorm, mkPolyNorms, Nodes.ofList, ofChildren, Kind.isCombination, combine, leaf, zero, addMonomial,
      OrderedMap.empty, OrderedMap.find?, PolyNorm.assign, OrderedMap.set, OrderedMap.setEntries, PolyNorm.add]
    norm_num
  · simp [mkNode, mkPolyNorm, mkPolyNorms, Nodes.ofList, ofChildren, Kind.isCombination, combine, leaf, constant, zero,
      addMonomial, OrderedMap.empty, OrderedMap.find?, PolyNorm.assign, OrderedMap.set, OrderedMap.setEntries, PolyNorm.add,
      multiply, multiplyMonomial, MonoVar.single, MonoVar.null]
    rfl

theorem entries_multiple (c : Int) (nonzero : c ≠ 0) (name : Nat)
    : (mkDiff (mkNode .mult [.constInteger c, .var .int name]) (.constInteger 0)).monomials.entries
      = [(.single (.var .int name), (c : Rat))] := by
  simp [mkDiff, mkNode, mkPolyNorm, mkPolyNorms, Nodes.ofList, ofChildren, Kind.isCombination, combine, leaf, constant,
    zero, addMonomial, OrderedMap.empty, OrderedMap.find?, PolyNorm.assign, OrderedMap.set, OrderedMap.setEntries, nonzero,
    PolyNorm.add, subtract, multiply, multiplyMonomial, MonoVar.single, MonoVar.null]
  rfl

/-- Negativity of a multiple of a variable. -/
def negative (c : Int) : Node := mkNode .lt [mkNode .mult [.constInteger c, .var .int 0], .constInteger 0]

theorem isArithPolyNormRel_negative : isArithPolyNormRel (negative 3) (negative 2) = some (2, 3) := by
  have differ : negative 3 ≠ negative 2 := by decide
  have kinds (c : Int) : (negative c).getKind = .lt ∧ (negative c).children
      = [mkNode .mult [.constInteger c, .var .int 0], .constInteger 0] := ⟨rfl, rfl⟩
  have three := entries_multiple 3 (by decide) 0
  have two := entries_multiple 2 (by decide) 0
  rw [isArithPolyNormRel, if_neg differ]
  simp only [kinds]
  norm_num [arithFactors, leadingCoefficient, isEqual, mulCoeffs, OrderedMap.mapValues, OrderedMap.find?, three, two]
  rw [if_neg (by decide), if_pos (by decide)]

end Orders

/-- An order of the nodes. -/
noncomputable abbrev nodeOrder : LinearOrder Node := @linearOrderOfSTO _ WellOrderingRel _ (Classical.decRel _)

noncomputable abbrev monoVarOrder : LinearOrder (@MonoVar nodeOrder) :=
  @linearOrderOfSTO _ WellOrderingRel _ (Classical.decRel _)

/-- The three parts at two sums that have one normal form, at a premise between two differences, and at two different
atoms.
-/
theorem polyNorm_steps_sound_example
    : zeros.Satisfies (mkNode .equal [mkNode .add [.var .int 0, .var .int 0], mkNode .mult [.constInteger 2, .var .int 0]])
      ∧ SoundForShape .lt ⟨true, 0⟩ ⟨true, 0⟩
      ∧ RelationsAgree (negative 3) (negative 2) 2 3 := by
  obtain ⟨polyNorm, rel, atoms⟩ := @polyNorm_steps_sound nodeOrder monoVarOrder
  have isAtom (c : Int) : IsAtom (negative c) :=
    ⟨rfl, rfl, by
      intro n member
      simp only [negative, children_mkNode, List.mem_cons, List.not_mem_nil, or_false] at member
      rcases member with rfl | rfl <;> rfl⟩
  refine ⟨?_, ?_, ?_⟩
  · refine polyNorm []
      [mkNode .equal [mkNode .add [.var .int 0, .var .int 0], mkNode .mult [.constInteger 2, .var .int 0]]] _ ?_ ?_ zeros
    · intro arg member
      obtain rfl := List.mem_singleton.mp member
      rfl
    · obtain ⟨sum, product⟩ := @entries_double nodeOrder monoVarOrder
      have isType : (mkNode .add [.var .int 0, .var .int 0]).getType = some .int := rfl
      simp [checkArithPolyNorm, isArithPolyNorm, getKind_mkNode, isType, TypeNode.isRealOrInt, areEqualPolyNormTyped,
        isEqual, Library.OrderedMap.find?, sum, product]
  · exact (rel .lt rfl _ _).mpr ⟨⟨rfl, rfl⟩, ⟨rfl, rfl⟩⟩
  · exact atoms _ _ 2 3 (isAtom 3) (isAtom 2) (@isArithPolyNormRel_negative nodeOrder monoVarOrder)

/-- A multiplier that is not a constant may be zero, and a further factor may be. In both cases the
checker accepts a false conclusion from a premise that holds.
-/
theorem checkArithPolyNormRel_unsound
    : (let child := mkNode .equal
          [mkNode .mult [.var .int 0, mkNode .sub [.constInteger 1, .constInteger 0]],
            mkNode .mult [.constInteger 1, mkNode .sub [.constInteger 0, .constInteger 0]]]
        let equivalence := mkNode .equal [mkNode .equal [.constInteger 1, .constInteger 0],
          mkNode .equal [.constInteger 0, .constInteger 0]]
        child.getType = some .bool ∧ checkArithPolyNormRel [child] [equivalence] = some equivalence
          ∧ zeros.Satisfies child ∧ ¬zeros.Satisfies equivalence)
      ∧ (let child := mkNode .equal
          [mkNode .mult [.constInteger 1, mkNode .sub [.constInteger 1, .constInteger 0],
              .constInteger 0],
            mkNode .mult [.constInteger 1, mkNode .sub [.constInteger 0, .constInteger 0]]]
        let equivalence := mkNode .equal [mkNode .leq [.constInteger 1, .constInteger 0],
          mkNode .leq [.constInteger 0, .constInteger 0]]
        child.getType = some .bool ∧ checkArithPolyNormRel [child] [equivalence] = some equivalence
          ∧ zeros.Satisfies child ∧ ¬zeros.Satisfies equivalence) := by
  refine ⟨⟨by decide, by decide, ?_, ?_⟩, ⟨by decide, by decide, ?_, ?_⟩⟩
  · simp [satisfies_equal, Kind.apply, Node.eval, zeros, Value.default, Value.toReal]
  · rw [satisfies_equivalence zeros (eval_relation zeros rfl rfl rfl)
      (eval_relation zeros rfl rfl rfl)]
    simp [relationHolds]
  · simp [satisfies_equal, Kind.apply, Node.eval, Value.toReal]
  · rw [satisfies_equivalence zeros (eval_relation zeros rfl rfl rfl)
      (eval_relation zeros rfl rfl rfl)]
    simp [relationHolds]

end Ava6.Arith.Poly
