import Mathlib
import Ava6.Library.LinearForm
import Ava6.Arith.Rewriter.Node

/-! Sums of monomials: `addToSum` flattens a term into a sum, and `collectSum` makes a term of a sum again. The order
of the nodes by their ids is arbitrary.
-/

namespace Ava6.Arith.Rewriter

open Library

/-- A rational constant, of type Int if it is integral. -/
def mkConst (r : Rat) : Node := if r.den = 1 then .constInteger r.num else .constRational r

def mkNonlinearMult : List Node → Node
  | [] => .constInteger 1
  | [factor] => factor
  | factors => mkNode .nonlinearMult factors

/-- The product of a multiplicity and a monomial. -/
def mkMultTerm (multiplicity : Rat) (monomial : Node) : Node :=
  match monomial.getConst with
  | some r => mkConst (multiplicity * r)
  | none => if multiplicity = 1 then monomial else mkNode .mult [mkConst multiplicity, monomial]

def removeToReal : Node → Node
  | .apply .toReal (.cons n .nil) => n
  | n => n

def ensureReal (t : Node) : Node :=
  if t.getType = .int then
    match t.getConst with
    | some r => .constRational r
    | none => mkNode .toReal [t]
  else t

/-- A node as a key of a sum. -/
structure Monomial where
  node : Node
  deriving Repr

section Comparator

variable [LinearOrder Node]

/-- What `LeafNodeComparator` looks at: constants come first, then real before integer terms, variables before
others, and then the order of the nodes. -/
def Monomial.rank (m : Monomial) : Bool ×ₗ Bool ×ₗ Bool ×ₗ Node :=
  toLex (!m.node.isConst, toLex (m.node.getType == .int, toLex (!m.node.isVar, m.node)))

omit [LinearOrder Node] in
theorem Monomial.rank_injective : Function.Injective Monomial.rank := by
  rintro ⟨n⟩ ⟨n'⟩ same
  have sameNode := congrArg (fun r => (ofLex (ofLex (ofLex r).2).2).2) same
  exact congrArg Monomial.mk sameNode

instance : LinearOrder Monomial := LinearOrder.lift' Monomial.rank Monomial.rank_injective

/-- A sum maps monomials to their multiplicities. -/
abbrev Sum := LinearForm Monomial

end Comparator

mutual
/-- The factors of a product that are not constant, and the multiplicity. -/
def addToProduct (product : List Node × Rat) : Node → List Node × Rat
  | .constInteger z => (product.1, product.2 * z)
  | .constRational r => (product.1, product.2 * r)
  | .apply k children =>
      if k = .mult ∨ k = .nonlinearMult then addAllToProduct product children
      else (product.1 ++ [.apply k children], product.2)
  | .var type name => (product.1 ++ [.var type name], product.2)
  | .term type name => (product.1 ++ [.term type name], product.2)
  | .constBoolean b => (product.1 ++ [.constBoolean b], product.2)
  | .constBitVector w b => (product.1 ++ [.constBitVector w b], product.2)

def addAllToProduct (product : List Node × Rat) : Nodes → List Node × Rat
  | .nil => product
  | .cons head tail => addAllToProduct (addToProduct product head) tail
end

section Sums

variable [LinearOrder Node]

/-- Adds a product to a sum. -/
def addProductToSum (sum : Sum) (product : List Node × Rat) : Sum :=
  sum.addMonomial ⟨mkNonlinearMult product.1⟩ product.2

/-- One, or minus one to negate. -/
def sign (negate : Bool) : Rat := if negate then -1 else 1

mutual
/-- Adds the term, or its negation. -/
def addToSum (sum : Sum) (negate : Bool) : Node → Sum
  | .apply k children =>
      if k = .add then addAllToSum sum negate children
      else addProductToSum sum (addToProduct ([], sign negate) (.apply k children))
  | .var type name => addProductToSum sum (addToProduct ([], sign negate) (.var type name))
  | .term type name => addProductToSum sum (addToProduct ([], sign negate) (.term type name))
  | .constBoolean b => addProductToSum sum (addToProduct ([], sign negate) (.constBoolean b))
  | .constBitVector w b => addProductToSum sum (addToProduct ([], sign negate) (.constBitVector w b))
  | .constInteger z => addProductToSum sum (addToProduct ([], sign negate) (.constInteger z))
  | .constRational r => addProductToSum sum (addToProduct ([], sign negate) (.constRational r))

def addAllToSum (sum : Sum) (negate : Bool) : Nodes → Sum
  | .nil => sum
  | .cons head tail => addAllToSum (addToSum sum negate head) negate tail
end

/-- The sum of some terms. -/
def mkSum : List Node → Node
  | [] => mkConst 0
  | [n] => n
  | nodes => mkNode .add nodes

def collectSum (sum : Sum) : Node := mkSum (sum.entries.map (fun m => mkMultTerm m.2 m.1.node))

end Sums

mutual
/-- Whether there are only terms of type Int below sums and products. -/
def isIntegralNode : Node → Bool
  | .constInteger _ | .constRational _ => true
  | .apply k children =>
      if k = .add ∨ k = .neg ∨ k = .sub ∨ k = .mult ∨ k = .nonlinearMult then areIntegralNodes children
      else k.computeType children.getTypes == .int
  | n => n.getType == .int

def areIntegralNodes : Nodes → Bool
  | .nil => true
  | .cons head tail => isIntegralNode head && areIntegralNodes tail
end

def isIntegral [LinearOrder Node] (sum : Sum) : Bool := sum.entries.all (fun m => isIntegralNode m.1.node)

section Values

variable (I : Interpretation)

theorem value_mkConst (r : Rat) : (mkConst r).value I = r := by
  rw [mkConst]
  split
  · next isIntegral =>
      rw [Node.value]
      nth_rewrite 2 [← Rat.coe_int_num_of_den_eq_one isIntegral]
      exact (Rat.cast_intCast _).symm
  · rfl

theorem getConst_mkConst (r : Rat) : (mkConst r).getConst = some r := by
  rw [mkConst]
  split
  · next isIntegral => exact congrArg some (Rat.coe_int_num_of_den_eq_one isIntegral)
  · rfl

theorem value_mkNonlinearMult (factors : List Node)
    : (mkNonlinearMult factors).value I = (factors.map (Node.value I)).prod := by
  match factors with
  | [] => simp [mkNonlinearMult, Node.value]
  | [factor] => simp [mkNonlinearMult]
  | first :: second :: rest =>
      change (mkNode .nonlinearMult _).value I = _
      rw [value_mkNode]
      rfl

theorem value_mkMultTerm (multiplicity : Rat) (monomial : Node)
    : (mkMultTerm multiplicity monomial).value I = multiplicity * monomial.value I := by
  unfold mkMultTerm
  split
  · next r isConst => rw [value_mkConst, Rat.cast_mul, value_of_getConst I isConst]
  · split
    · next isOne => rw [isOne, Rat.cast_one, one_mul]
    · rw [value_mkNode]
      simp [Kind.apply, value_mkConst]

theorem value_removeToReal (n : Node) : (removeToReal n).value I = n.value I := by
  unfold removeToReal
  split
  · rw [Node.value, Nodes.values, Nodes.values, Kind.apply]
  · rfl

theorem value_ensureReal (t : Node) : (ensureReal t).value I = t.value I := by
  unfold ensureReal
  split
  · split
    · next r isConst => rw [value_of_getConst I isConst, Node.value]
    · rw [value_mkNode]
      rfl
  · rfl

/-- The value of factors with a multiplicity. -/
noncomputable def productValue (product : List Node × Rat) : ℝ :=
  product.2 * (product.1.map (Node.value I)).prod

theorem productValue_append (product : List Node × Rat) (n : Node)
    : productValue I (product.1 ++ [n], product.2) = productValue I product * n.value I := by
  simp [productValue, mul_assoc]

theorem productValue_mul (product : List Node × Rat) (r : Rat)
    : productValue I (product.1, product.2 * r) = productValue I product * r := by
  simp [productValue]
  ring

mutual

/-- The new factors are those of the term. -/
theorem productValue_addToProduct (product : List Node × Rat) (n : Node)
    : productValue I (addToProduct product n) = productValue I product * n.value I := by
  match n with
  | .constInteger z =>
      rw [addToProduct, productValue_mul, Node.value, Rat.cast_intCast]
  | .constRational r => rw [addToProduct, productValue_mul, Node.value]
  | .apply k children =>
      rw [addToProduct]
      split
      · next isProduct =>
          rw [productValue_addAllToProduct product children, Node.value]
          rcases isProduct with rfl | rfl <;> rfl
      · exact productValue_append I product _
  | .var type name => exact productValue_append I product _
  | .term type name => exact productValue_append I product _
  | .constBoolean b => exact productValue_append I product _
  | .constBitVector w b => exact productValue_append I product _

theorem productValue_addAllToProduct (product : List Node × Rat) (children : Nodes)
    : productValue I (addAllToProduct product children) = productValue I product * (children.values I).prod := by
  match children with
  | .nil => rw [addAllToProduct, Nodes.values, List.prod_nil, mul_one]
  | .cons head tail =>
      rw [addAllToProduct, productValue_addAllToProduct (addToProduct product head) tail,
        productValue_addToProduct product head, Nodes.values, List.prod_cons, mul_assoc]

end

theorem productValue_sign (negate : Bool) (n : Node)
    : productValue I (addToProduct ([], sign negate) n) = sign negate * n.value I := by
  rw [productValue_addToProduct]
  simp [productValue]

theorem value_mkSum (nodes : List Node) : (mkSum nodes).value I = (nodes.map (Node.value I)).sum := by
  match nodes with
  | [] => exact (value_mkConst I 0).trans Rat.cast_zero
  | [n] => simp [mkSum]
  | first :: second :: rest =>
      change (mkNode .add _).value I = _
      rw [value_mkNode]
      rfl

variable [LinearOrder Node]

/-- The value of a sum. -/
noncomputable def sumValue (sum : Sum) : ℝ := sum.eval (fun m => m.node.value I)

theorem sumValue_addProductToSum (sum : Sum) (product : List Node × Rat)
    : sumValue I (addProductToSum sum product) = sumValue I sum + productValue I product := by
  rw [sumValue, addProductToSum, LinearForm.eval_addMonomial, value_mkNonlinearMult, eq_ratCast]
  rfl

mutual

theorem sumValue_addToSum (sum : Sum) (negate : Bool) (n : Node)
    : sumValue I (addToSum sum negate n) = sumValue I sum + sign negate * n.value I := by
  match n with
  | .apply k children =>
      rw [addToSum]
      split
      · next isSum =>
          rw [sumValue_addAllToSum sum negate children, isSum, Node.value]
          rfl
      · rw [sumValue_addProductToSum]
        exact congrArg (sumValue I sum + ·) (productValue_sign I negate _)
  | .var _ _ | .term _ _ | .constBoolean _ | .constBitVector _ _ | .constInteger _ | .constRational _ =>
      rw [addToSum, sumValue_addProductToSum]
      exact congrArg (sumValue I sum + ·) (productValue_sign I negate _)

theorem sumValue_addAllToSum (sum : Sum) (negate : Bool) (children : Nodes)
    : sumValue I (addAllToSum sum negate children) = sumValue I sum + sign negate * (children.values I).sum := by
  match children with
  | .nil => rw [addAllToSum, Nodes.values, List.sum_nil, mul_zero, add_zero]
  | .cons head tail =>
      rw [addAllToSum, sumValue_addAllToSum (addToSum sum negate head) negate tail, sumValue_addToSum sum negate head,
        Nodes.values, List.sum_cons, mul_add, add_assoc]

end

theorem value_collectSum (sum : Sum) : (collectSum sum).value I = sumValue I sum := by
  rw [collectSum, value_mkSum, sumValue, LinearForm.eval_eq_sum, List.map_map]
  refine congrArg List.sum (List.map_congr_left (fun m _ => ?_))
  rw [Function.comp_apply, value_mkMultTerm, eq_ratCast]

end Values

end Ava6.Arith.Rewriter
