import Ava6.Arith.Rewriter.RewriteAtom

/-! Flattened terms: sums of products of leaves. Their sums have products of leaves as keys, and a sum is read back
from the term that `collectSum` makes of it.
-/

namespace Ava6.Arith.Rewriter

open Library

/-- Neither a sum, nor a product, nor a cast. -/
def Kind.isLeaf : Kind → Bool
  | .add | .sub | .neg | .mult | .nonlinearMult | .toReal => false
  | _ => true

/-- An arithmetic term that is not a constant and has to be left as it is. -/
def Node.isLeaf (n : Node) : Bool := !n.isConst && n.getKind.isLeaf && n.getType.isRealOrInt

mutual
/-- A product of constants and leaves. -/
def isFlatProduct : Node → Bool
  | .constInteger _ | .constRational _ => true
  | .apply k children =>
      if k = .mult ∨ k = .nonlinearMult then areFlatProducts children else (Node.apply k children).isLeaf
  | n => n.isLeaf

def areFlatProducts : Nodes → Bool
  | .nil => true
  | .cons head tail => isFlatProduct head && areFlatProducts tail
end

mutual
/-- A sum of products of constants and leaves. -/
def isFlatSum : Node → Bool
  | .apply k children => if k = .add then areFlatSums children else isFlatProduct (.apply k children)
  | n => isFlatProduct n

def areFlatSums : Nodes → Bool
  | .nil => true
  | .cons head tail => isFlatSum head && areFlatSums tail
end

/-- A side of an atom in flattened form, perhaps under a cast. -/
def isFlat (n : Node) : Bool := isFlatSum (removeToReal n)

/-- A product of leaves. -/
def Monomial.Flat (m : Monomial) : Prop :=
  ∃ factors : List Node, (∀ n ∈ factors, n.isLeaf = true) ∧ m.node = mkNonlinearMult factors

section Leaves

variable {n : Node}

theorem Node.isLeaf_iff : n.isLeaf = true ↔ n.getConst = none ∧ n.getKind.isLeaf = true ∧ n.getType.isRealOrInt = true := by
  simp [Node.isLeaf, Node.isConst, and_assoc]

theorem addToProduct_leaf (product : List Node × Rat) (isLeaf : n.isLeaf = true)
    : addToProduct product n = (product.1 ++ [n], product.2) := by
  obtain ⟨notConst, kind, -⟩ := Node.isLeaf_iff.mp isLeaf
  match n with
  | .constInteger _ => cases notConst
  | .constRational _ => cases notConst
  | .var _ _ => rfl
  | .term _ _ => rfl
  | .constBoolean _ => rfl
  | .constBitVector _ _ => rfl
  | .apply k children =>
      have notProduct : ¬(k = .mult ∨ k = .nonlinearMult) := by
        rintro (rfl | rfl) <;> cases kind
      rw [addToProduct, if_neg notProduct]

theorem addAllToProduct_leaves (product : List Node × Rat) {factors : List Node}
    (leaves : ∀ n ∈ factors, n.isLeaf = true)
    : addAllToProduct product (.ofList factors) = (product.1 ++ factors, product.2) := by
  induction factors generalizing product with
  | nil => simp [Nodes.ofList, addAllToProduct]
  | cons n rest ih =>
      obtain ⟨first, others⟩ := List.forall_mem_cons.mp leaves
      rw [Nodes.ofList, addAllToProduct, addToProduct_leaf product first, ih _ others, List.append_assoc,
        List.singleton_append]

/-- The factors are read back from a product. -/
theorem addToProduct_mkNonlinearMult (product : List Node × Rat) {factors : List Node}
    (leaves : ∀ n ∈ factors, n.isLeaf = true)
    : addToProduct product (mkNonlinearMult factors) = (product.1 ++ factors, product.2) := by
  match factors with
  | [] => simp [mkNonlinearMult, addToProduct]
  | [n] => exact addToProduct_leaf product (leaves n List.mem_cons_self)
  | first :: second :: rest =>
      change addToProduct product (mkNode .nonlinearMult _) = _
      rw [mkNode, addToProduct, if_pos (Or.inr rfl), addAllToProduct_leaves product leaves]

theorem addToProduct_mkConst (product : List Node × Rat) (r : Rat)
    : addToProduct product (mkConst r) = (product.1, product.2 * r) := by
  rw [mkConst]
  split
  · next isIntegral =>
      rw [addToProduct, Rat.coe_int_num_of_den_eq_one isIntegral]
  · rfl

theorem getConst_mkNonlinearMult {factors : List Node} (leaves : ∀ n ∈ factors, n.isLeaf = true)
    : (mkNonlinearMult factors).getConst = if factors.isEmpty then some 1 else none := by
  match factors with
  | [] => rfl
  | [n] => exact (Node.isLeaf_iff.mp (leaves n List.mem_cons_self)).1
  | _ :: _ :: _ => rfl

/-- The factors and the multiplicity are read back. -/
theorem addToProduct_mkMultTerm (product : List Node × Rat) (multiplicity : Rat) {factors : List Node}
    (leaves : ∀ n ∈ factors, n.isLeaf = true)
    : addToProduct product (mkMultTerm multiplicity (mkNonlinearMult factors))
      = (product.1 ++ factors, product.2 * multiplicity) := by
  have ofProduct (product : List Node × Rat) := addToProduct_mkNonlinearMult product leaves
  unfold mkMultTerm
  rw [getConst_mkNonlinearMult leaves]
  cases empty : factors.isEmpty with
  | true =>
      obtain rfl := List.isEmpty_iff.mp empty
      simp only [if_true]
      rw [addToProduct_mkConst, mul_one, List.append_nil]
  | false =>
      simp only [Bool.false_eq_true, if_false]
      split
      · next isOne => rw [ofProduct, isOne, mul_one]
      · rw [mkNode, addToProduct, if_pos (Or.inl rfl), Nodes.ofList, addAllToProduct, addToProduct_mkConst,
          Nodes.ofList, addAllToProduct, ofProduct, Nodes.ofList, addAllToProduct]

theorem getKind_mkNonlinearMult {factors : List Node} (leaves : ∀ n ∈ factors, n.isLeaf = true)
    : (mkNonlinearMult factors).getKind ≠ .add ∧ (mkNonlinearMult factors).getKind ≠ .toReal := by
  match factors with
  | [] => exact ⟨nofun, nofun⟩
  | [n] =>
      have isLeaf := (Node.isLeaf_iff.mp (leaves n List.mem_cons_self)).2.1
      constructor
      · intro isSum
        rw [show n.getKind = .add from isSum] at isLeaf
        cases isLeaf
      · intro isCast
        rw [show n.getKind = .toReal from isCast] at isLeaf
        cases isLeaf
  | _ :: _ :: _ => exact ⟨nofun, nofun⟩

theorem getKind_mkConst (r : Rat) : (mkConst r).getKind ≠ .add ∧ (mkConst r).getKind ≠ .toReal := by
  rw [mkConst]
  split
  · exact ⟨(fun isSame => by cases isSame), (fun isSame => by cases isSame)⟩
  · exact ⟨(fun isSame => by cases isSame), (fun isSame => by cases isSame)⟩

theorem getKind_mkMultTerm (multiplicity : Rat) {m : Monomial} (flat : m.Flat)
    : (mkMultTerm multiplicity m.node).getKind ≠ .add ∧ (mkMultTerm multiplicity m.node).getKind ≠ .toReal := by
  obtain ⟨factors, leaves, isProduct⟩ := flat
  unfold mkMultTerm
  split
  · exact getKind_mkConst _
  · split
    · rw [isProduct]
      exact getKind_mkNonlinearMult leaves
    · exact ⟨nofun, nofun⟩

end Leaves

mutual

/-- A term always adds the same factors. -/
theorem addToProduct_eq (product : List Node × Rat) (n : Node)
    : addToProduct product n
      = (product.1 ++ (addToProduct ([], 1) n).1, product.2 * (addToProduct ([], 1) n).2) := by
  match n with
  | .constInteger _ | .constRational _ => simp [addToProduct]
  | .var _ _ | .term _ _ | .constBoolean _ | .constBitVector _ _ => simp [addToProduct]
  | .apply k children =>
      rw [addToProduct, addToProduct]
      split
      · exact addAllToProduct_eq product children
      · simp

theorem addAllToProduct_eq (product : List Node × Rat) (children : Nodes)
    : addAllToProduct product children
      = (product.1 ++ (addAllToProduct ([], 1) children).1, product.2 * (addAllToProduct ([], 1) children).2) := by
  match children with
  | .nil => simp [addAllToProduct]
  | .cons head tail =>
      rw [addAllToProduct, addAllToProduct, addAllToProduct_eq (addToProduct product head) tail,
        addAllToProduct_eq (addToProduct ([], 1) head) tail, addToProduct_eq product head, List.append_assoc,
        mul_assoc]

end

section Coefficients

variable [LinearOrder Node] {sum : Sum} {n : Node}

/-- The sum of a term. -/
def sumOf (n : Node) : Sum := addToSum .empty false n

theorem coefficient_addProductToSum (sum : Sum) (negate : Bool) (n : Node) (key : Monomial)
    : (addProductToSum sum (addToProduct ([], sign negate) n)).coefficient key
      = sum.coefficient key
        + sign negate * (addProductToSum .empty (addToProduct ([], sign false) n)).coefficient key := by
  rw [addProductToSum, addProductToSum, LinearForm.coefficient_addMonomial, LinearForm.coefficient_addMonomial,
    addToProduct_eq ([], sign negate) n, addToProduct_eq ([], sign false) n, LinearForm.coefficient_empty, zero_add]
  split
  · simp [sign]
  · simp

mutual

/-- Adding a term adds its coefficients. -/
theorem coefficient_addToSum (sum : Sum) (negate : Bool) (n : Node) (key : Monomial)
    : (addToSum sum negate n).coefficient key = sum.coefficient key + sign negate * (sumOf n).coefficient key := by
  match n with
  | .apply k children =>
      rw [sumOf, addToSum, addToSum]
      split
      · exact coefficient_addAllToSum sum negate children key
      · exact coefficient_addProductToSum sum negate _ key
  | .var _ _ | .term _ _ | .constBoolean _ | .constBitVector _ _ | .constInteger _ | .constRational _ =>
      rw [sumOf, addToSum, addToSum]
      exact coefficient_addProductToSum sum negate _ key

theorem coefficient_addAllToSum (sum : Sum) (negate : Bool) (children : Nodes) (key : Monomial)
    : (addAllToSum sum negate children).coefficient key
      = sum.coefficient key + sign negate * (addAllToSum .empty false children).coefficient key := by
  match children with
  | .nil => simp [addAllToSum]
  | .cons head tail =>
      rw [addAllToSum, addAllToSum, coefficient_addAllToSum (addToSum sum negate head) negate tail key,
        coefficient_addAllToSum (addToSum .empty false head) false tail key, coefficient_addToSum sum negate head key,
        sumOf]
      simp only [sign, Bool.false_eq_true, if_false]
      ring

end

/-- The difference of the sides of a relation. -/
theorem coefficient_difference (left right : Node) (negate : Bool) (key : Monomial)
    : (addToSum (addToSum .empty negate left) (!negate) right).coefficient key
      = sign negate * ((sumOf left).coefficient key - (sumOf right).coefficient key) := by
  rw [coefficient_addToSum, coefficient_addToSum, LinearForm.coefficient_empty]
  cases negate
  · simp only [sign, Bool.not_false, Bool.false_eq_true, if_false, if_true]
    ring
  · simp only [sign, Bool.not_true, Bool.false_eq_true, if_false, if_true]
    ring

theorem coefficient_sumOf_mkSum (nodes : List Node) (key : Monomial)
    : (sumOf (mkSum nodes)).coefficient key = (nodes.map (fun n => (sumOf n).coefficient key)).sum := by
  have all (nodes : List Node) : (addAllToSum .empty false (.ofList nodes)).coefficient key
      = (nodes.map (fun n => (sumOf n).coefficient key)).sum := by
    induction nodes with
    | nil => rfl
    | cons n rest ih =>
        rw [Nodes.ofList, addAllToSum, coefficient_addAllToSum, ih, List.map_cons, List.sum_cons]
        simp [sign, sumOf]
  rcases nodes with _ | ⟨first, _ | ⟨second, rest⟩⟩
  · rw [mkSum, mkConst, if_pos Rat.den_zero]
    change (LinearForm.addMonomial .empty _ _).coefficient key = _
    rw [LinearForm.coefficient_addMonomial]
    simp [sign, addToProduct]
  · simp [mkSum]
  · change (sumOf (mkNode .add _)).coefficient key = _
    rw [sumOf, mkNode, addToSum, if_pos rfl, all]

theorem addToSum_of_not_add (sum : Sum) (negate : Bool) (notSum : n.getKind ≠ .add)
    : addToSum sum negate n = addProductToSum sum (addToProduct ([], sign negate) n) := by
  match n with
  | .apply k children =>
      have notAdd : ¬k = .add := notSum
      rw [addToSum, if_neg notAdd]
  | .var _ _ | .term _ _ | .constBoolean _ | .constBitVector _ _ | .constInteger _ | .constRational _ => rw [addToSum]

theorem coefficient_sumOf_mkMultTerm (multiplicity : Rat) {m : Monomial} (flat : m.Flat) (key : Monomial)
    : (sumOf (mkMultTerm multiplicity m.node)).coefficient key = if key = m then multiplicity else 0 := by
  rw [sumOf, addToSum_of_not_add .empty false (getKind_mkMultTerm multiplicity flat).1]
  obtain ⟨factors, leaves, isProduct⟩ := flat
  have isKey : (⟨mkNonlinearMult factors⟩ : Monomial) = m := by rw [← isProduct]
  rw [isProduct, addToProduct_mkMultTerm _ multiplicity leaves, addProductToSum, LinearForm.coefficient_addMonomial,
    List.nil_append, isKey]
  simp [sign]

/-- All keys are products of leaves. -/
def FlatKeys (sum : Sum) : Prop := ∀ key, sum.coefficient key ≠ 0 → key.Flat

theorem FlatKeys.of_mem (flat : FlatKeys sum) {m : Monomial × Rat} (member : m ∈ sum.entries) : m.1.Flat := by
  obtain ⟨isCoefficient, nonzero⟩ := LinearForm.mem_entries.mp member
  exact flat m.1 (isCoefficient ▸ nonzero)

/-- A sum is read back from its term. -/
theorem sumOf_collectSum (flat : FlatKeys sum) : sumOf (collectSum sum) = sum := by
  refine LinearForm.ext (fun key => ?_)
  rw [collectSum, coefficient_sumOf_mkSum, List.map_map, LinearForm.coefficient_eq_sum sum]
  refine congrArg List.sum (List.map_congr_left (fun m member => ?_))
  exact coefficient_sumOf_mkMultTerm m.2 (flat.of_mem member) key

end Coefficients

mutual

theorem isLeaf_of_addToProduct {product : List Node × Rat} (leaves : ∀ n ∈ product.1, n.isLeaf = true) (n : Node)
    (flat : isFlatProduct n = true)
    : ∀ factor ∈ (addToProduct product n).1, factor.isLeaf = true := by
  have ofLeaf (isLeaf : n.isLeaf = true) : ∀ factor ∈ (addToProduct product n).1, factor.isLeaf = true := by
    rw [addToProduct_leaf product isLeaf]
    simpa using fun factor => Or.rec (leaves factor) (fun same => same ▸ isLeaf)
  match n with
  | .constInteger _ => exact leaves
  | .constRational _ => exact leaves
  | .apply k children =>
      rw [isFlatProduct] at flat
      split at flat
      · next isProduct =>
          rw [addToProduct, if_pos isProduct]
          exact isLeaf_of_addAllToProduct leaves children flat
      · exact ofLeaf flat
  | .var _ _ => exact ofLeaf flat
  | .term _ _ => exact ofLeaf flat
  | .constBoolean _ => exact ofLeaf flat
  | .constBitVector _ _ => exact ofLeaf flat

theorem isLeaf_of_addAllToProduct {product : List Node × Rat} (leaves : ∀ n ∈ product.1, n.isLeaf = true)
    (children : Nodes) (flat : areFlatProducts children = true)
    : ∀ factor ∈ (addAllToProduct product children).1, factor.isLeaf = true := by
  match children with
  | .nil => exact leaves
  | .cons head tail =>
      obtain ⟨headFlat, tailFlat⟩ := Bool.and_eq_true_iff.mp flat
      rw [addAllToProduct]
      exact isLeaf_of_addAllToProduct (isLeaf_of_addToProduct leaves head headFlat) tail tailFlat

end

section Keys

variable [LinearOrder Node] {sum : Sum}

theorem FlatKeys.empty : FlatKeys (.empty : Sum) := fun _ nonzero => absurd rfl nonzero

theorem FlatKeys.scale (flat : FlatKeys sum) (c : Rat) : FlatKeys (sum.scale c) := by
  intro key nonzero
  rw [LinearForm.coefficient_scale] at nonzero
  exact flat key (left_ne_zero_of_mul nonzero)

theorem FlatKeys.erase (flat : FlatKeys sum) (other : Monomial) : FlatKeys (sum.erase other) := by
  intro key nonzero
  rw [LinearForm.coefficient_erase] at nonzero
  split at nonzero
  · exact absurd rfl nonzero
  · exact flat key nonzero

theorem FlatKeys.addToProduct (flat : FlatKeys sum) (negate : Bool) {n : Node} (isFlat : isFlatProduct n = true)
    : FlatKeys (addProductToSum sum (addToProduct ([], sign negate) n)) := by
  intro key nonzero
  rw [addProductToSum, LinearForm.coefficient_addMonomial] at nonzero
  split at nonzero
  · next isKey =>
      exact ⟨_, isLeaf_of_addToProduct (List.forall_mem_nil _) n isFlat, congrArg Monomial.node isKey⟩
  · rw [add_zero] at nonzero
    exact flat key nonzero

mutual

theorem FlatKeys.addToSum {sum : Sum} (flat : FlatKeys sum) (negate : Bool) (n : Node) (isFlat : isFlatSum n = true)
    : FlatKeys (addToSum sum negate n) := by
  match n with
  | .apply k children =>
      rw [isFlatSum] at isFlat
      rw [Rewriter.addToSum]
      split at isFlat
      · next isSum =>
          rw [if_pos isSum]
          exact FlatKeys.addAllToSum flat negate children isFlat
      · next notSum =>
          rw [if_neg notSum]
          exact flat.addToProduct negate isFlat
  | .var _ _ | .term _ _ | .constBoolean _ | .constBitVector _ _ | .constInteger _ | .constRational _ =>
      rw [Rewriter.addToSum]
      exact flat.addToProduct negate isFlat

theorem FlatKeys.addAllToSum {sum : Sum} (flat : FlatKeys sum) (negate : Bool) (children : Nodes)
    (areFlat : areFlatSums children = true)
    : FlatKeys (addAllToSum sum negate children) := by
  match children with
  | .nil => exact flat
  | .cons head tail =>
      obtain ⟨headFlat, tailFlat⟩ := Bool.and_eq_true_iff.mp areFlat
      rw [Rewriter.addAllToSum]
      exact FlatKeys.addAllToSum (FlatKeys.addToSum flat negate head headFlat) negate tail tailFlat

end

/-- The keys of the difference of two flattened sides. -/
theorem flatKeys_difference {first second : Node} (firstFlat : isFlat first = true) (secondFlat : isFlat second = true)
    (negate : Bool)
    : FlatKeys (addToSum (addToSum .empty negate (removeToReal first)) (!negate) (removeToReal second)) :=
  (FlatKeys.empty.addToSum negate _ firstFlat).addToSum (!negate) _ secondFlat

end Keys

section Constants

variable {m : Monomial}

/-- The only constant key is one. -/
theorem Monomial.Flat.eq_one (flat : m.Flat) (isConst : m.node.isConst = true) : m.node = .constInteger 1 := by
  obtain ⟨factors, leaves, isProduct⟩ := flat
  rw [Node.isConst, isProduct, getConst_mkNonlinearMult leaves] at isConst
  match factors with
  | [] => exact isProduct
  | _ :: _ => cases isConst

theorem areIntegral_ofList {nodes : List Node} (integral : areIntegralNodes (.ofList nodes) = true)
    : ∀ n ∈ nodes, isIntegralNode n = true := by
  induction nodes with
  | nil => exact List.forall_mem_nil _
  | cons n rest ih =>
      obtain ⟨first, others⟩ := Bool.and_eq_true_iff.mp integral
      exact List.forall_mem_cons.mpr ⟨first, ih others⟩

theorem getType_of_isIntegralNode {n : Node} (isLeaf : n.isLeaf = true) (integral : isIntegralNode n = true)
    : n.getType = .int := by
  obtain ⟨notConst, kind, -⟩ := Node.isLeaf_iff.mp isLeaf
  match n with
  | .constInteger _ => cases notConst
  | .constRational _ => cases notConst
  | .var _ _ => exact beq_iff_eq.mp integral
  | .term _ _ => exact beq_iff_eq.mp integral
  | .constBoolean _ => cases integral
  | .constBitVector _ _ => cases integral
  | .apply k children =>
      have notArithmetic : ¬(k = .add ∨ k = .neg ∨ k = .sub ∨ k = .mult ∨ k = .nonlinearMult) := by
        rintro (rfl | rfl | rfl | rfl | rfl) <;> cases kind
      rw [isIntegralNode, if_neg notArithmetic] at integral
      exact beq_iff_eq.mp integral

/-- Integral products of leaves are of type Int. -/
theorem Monomial.Flat.getType_eq_int (flat : m.Flat) (integral : isIntegralNode m.node = true)
    : m.node.getType = .int := by
  obtain ⟨factors, leaves, isProduct⟩ := flat
  rw [isProduct] at integral ⊢
  match factors with
  | [] => rfl
  | [n] => exact getType_of_isIntegralNode (leaves n List.mem_cons_self) integral
  | first :: second :: rest =>
      change isIntegralNode (mkNode .nonlinearMult _) = true at integral
      change (mkNode .nonlinearMult _).getType = .int
      rw [mkNode, isIntegralNode, if_pos (by simp)] at integral
      have integers := areIntegral_ofList integral
      rw [getType_mkNode]
      refine if_pos (List.all_eq_true.mpr (fun type member => ?_))
      obtain ⟨n, isFactor, rfl⟩ := List.mem_map.mp member
      exact beq_iff_eq.mpr (getType_of_isIntegralNode (leaves n isFactor) (integers n isFactor))

end Constants

end Ava6.Arith.Rewriter
