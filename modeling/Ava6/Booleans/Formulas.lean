import Ava6.Booleans.Node

/-! The parts of formulas are formulas, and what the truth of a formula says about the truth of its parts. -/

namespace Ava6.Booleans

variable {k : Kind} {n a b c : Node} {children : List Node}

/-- The formulas are the nodes of Boolean type. -/
theorem formula_iff_typeOf : n.isFormula = true ↔ n.typeOf = some .bool := by
  simp [Node.isFormula]

theorem formula_not_iff : (Node.apply .not [a]).typeOf = some .bool ↔ a.typeOf = some .bool := by
  simp only [Node.typeOf, Node.typesOf]
  generalize Node.typeOf a = type
  rcases type with _ | (_ | _ | _) <;> simp [Node.typeOfKind]

theorem nary_formula_iff (nary : k = .or ∨ k = .and)
    : (Node.apply k children).typeOf = some .bool ↔ 2 ≤ children.length ∧ ∀ c ∈ children, c.typeOf = some .bool := by
  rcases nary with rfl | rfl <;> simp [Node.typeOf, Node.typeOfKind, Node.typesOf_eq_map]

theorem implies_formula (formula : (Node.apply .implies [a, b]).typeOf = some .bool)
    : a.typeOf = some .bool ∧ b.typeOf = some .bool := by
  simp only [Node.typeOf, Node.typesOf] at formula
  generalize Node.typeOf a = first, Node.typeOf b = second at formula
  rcases first with _ | (_ | _ | _) <;> rcases second with _ | (_ | _ | _) <;> simp [Node.typeOfKind] at formula ⊢

theorem xor_formula (formula : (Node.apply .xor [a, b]).typeOf = some .bool)
    : a.typeOf = some .bool ∧ b.typeOf = some .bool := by
  simp only [Node.typeOf, Node.typesOf] at formula
  generalize Node.typeOf a = first, Node.typeOf b = second at formula
  rcases first with _ | (_ | _ | _) <;> rcases second with _ | (_ | _ | _) <;> simp [Node.typeOfKind] at formula ⊢

theorem equal_formula_iff (first : a.typeOf = some .bool)
    : (Node.apply .equal [a, b]).typeOf = some .bool ↔ b.typeOf = some .bool := by
  simp only [Node.typeOf, Node.typesOf, first]
  generalize Node.typeOf b = second
  rcases second with _ | (_ | _ | _) <;> simp [Node.typeOfKind]

theorem ite_formula_iff
    : (Node.apply .ite [c, a, b]).typeOf = some .bool
      ↔ c.typeOf = some .bool ∧ a.typeOf = some .bool ∧ b.typeOf = some .bool := by
  simp only [Node.typeOf, Node.typesOf]
  generalize Node.typeOf c = first, Node.typeOf a = second, Node.typeOf b = third
  rcases first with _ | (_ | _ | _) <;> rcases second with _ | (_ | _ | _) <;> rcases third with _ | (_ | _ | _) <;>
    simp [Node.typeOfKind]

/-- The function says which nodes are true under some valuation. -/
def Truth (truth : Node → Bool) : Prop :=
  ∃ (D : Type) (_ : DecidableEq D) (valuation : Node → Value D), WellSorted valuation ∧ truth = Holds valuation

namespace Truth

variable {truth : Node → Bool}

theorem const (isTruth : Truth truth) (value : Bool) : truth (.const value) = value := by
  obtain ⟨D, _, valuation, sorted, rfl⟩ := isTruth
  rfl

theorem not (isTruth : Truth truth) (a : Node) : truth (.apply .not [a]) = !truth a := by
  obtain ⟨D, _, valuation, sorted, rfl⟩ := isTruth
  rfl

theorem and (isTruth : Truth truth) (children : List Node) : truth (.apply .and children) = children.all truth := by
  obtain ⟨D, _, valuation, sorted, rfl⟩ := isTruth
  exact holds_and children

theorem or (isTruth : Truth truth) (children : List Node) : truth (.apply .or children) = children.any truth := by
  obtain ⟨D, _, valuation, sorted, rfl⟩ := isTruth
  exact holds_or children

theorem implies (isTruth : Truth truth) (a b : Node) : truth (.apply .implies [a, b]) = (!truth a || truth b) := by
  obtain ⟨D, _, valuation, sorted, rfl⟩ := isTruth
  rfl

theorem xor (isTruth : Truth truth) (a b : Node) : truth (.apply .xor [a, b]) = (truth a ^^ truth b) := by
  obtain ⟨D, _, valuation, sorted, rfl⟩ := isTruth
  rfl

theorem ite (isTruth : Truth truth) (c a b : Node)
    : truth (.apply .ite [c, a, b]) = if truth c then truth a else truth b := by
  obtain ⟨D, _, valuation, sorted, rfl⟩ := isTruth
  exact holds_ite c a b

theorem equal (isTruth : Truth truth) (first : a.typeOf = some .bool) (second : b.typeOf = some .bool)
    : truth (.apply .equal [a, b]) = (truth a == truth b) := by
  obtain ⟨D, _, valuation, sorted, rfl⟩ := isTruth
  exact holds_equal_formulas sorted first second

end Truth

end Ava6.Booleans
