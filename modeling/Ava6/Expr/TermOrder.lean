import Ava6.Expr.TermCanonize
import Mathlib.Data.List.Lex

/-! The term order is a strict total order on terms: it compares texts of numbers, where the text of a
node starts with its operator and its number of children.
-/

namespace Ava6.Expr.Canonize

/-- Nodes that can be applied to nothing are not terms themselves. -/
def NullaryOperator : Node → Prop
  | .boundVar _ | .symbol (.term _) | .symbol (.builtin _) => False
  | .symbol (.operator _) | .apply _ _ | .parameterized _ _ => True

mutual

/-- Terms: operators of kinds are applied to children, and no symbol that is only applied is a child. -/
def IsTerm : Node → Prop
  | .boundVar _ => True
  | .symbol s => ∃ name, s = .term name
  | .apply _ children => children ≠ [] ∧ AreTerms children
  | .parameterized op children =>
      (∀ k, op ≠ .symbol (.builtin k)) ∧ (children = [] → NullaryOperator op) ∧ AreTerms children

def AreTerms : List Node → Prop
  | [] => True
  | node :: rest => IsTerm node ∧ AreTerms rest

end

theorem areTerms_children {n : Node} (isTerm : IsTerm n) : AreTerms n.children := by
  cases n with
  | boundVar v => simp [Node.children, AreTerms]
  | symbol s => simp [Node.children, AreTerms]
  | apply k children =>
      rw [IsTerm] at isTerm
      exact isTerm.2
  | parameterized op children =>
      rw [IsTerm] at isTerm
      exact isTerm.2.2

theorem parameterized_eq {op b : Node} {children : List Node}
    (isTerm : IsTerm (.parameterized op children)) (isTerm' : IsTerm b)
    (sameOperator : op = b.operator) (sameChildren : children = b.children)
    : .parameterized op children = b := by
  rw [IsTerm] at isTerm
  obtain ⟨notBuiltin, nullary, _⟩ := isTerm
  cases b with
  | boundVar v =>
      subst sameOperator
      exact (nullary sameChildren).elim
  | symbol s =>
      rw [IsTerm] at isTerm'
      obtain ⟨name, rfl⟩ := isTerm'
      subst sameOperator
      exact (nullary sameChildren).elim
  | apply k others => exact absurd sameOperator (notBuiltin k)
  | parameterized op' others =>
      rw [sameOperator, sameChildren]
      rfl

/-- The operator and the children determine a term. -/
theorem eq_of_operator_children {a b : Node} (isTerm : IsTerm a) (isTerm' : IsTerm b)
    (sameOperator : a.operator = b.operator) (sameChildren : a.children = b.children)
    : a = b := by
  cases a with
  | parameterized op children => exact parameterized_eq isTerm isTerm' sameOperator sameChildren
  | boundVar v | symbol s | apply k children =>
      cases b with
      | parameterized op' others =>
          exact (parameterized_eq isTerm' isTerm sameOperator.symm sameChildren.symm).symm
      | boundVar w | symbol s' | apply l others =>
          simp_all [Node.operator, Node.children, IsTerm]

mutual

/-- The numbers that decide the order of a node. -/
def orderKey (id : Node → Nat) : Node → List Nat
  | .boundVar v => [0, id (.boundVar v)]
  | .symbol s => [1, id (.symbol s), 0]
  | .apply k children =>
      1 :: id (.symbol (.builtin k)) :: children.length :: orderKeys id children
  | .parameterized op children => 1 :: id op :: children.length :: orderKeys id children

def orderKeys (id : Node → Nat) : List Node → List Nat
  | [] => []
  | node :: rest => orderKey id node ++ orderKeys id rest

end

variable {id : Node → Nat} {a b : Node}

theorem append_lt_append_iff (front left right : List Nat)
    : front ++ left < front ++ right ↔ left < right := by
  induction front with
  | nil => simp
  | cons x front ih => simp [ih]

theorem orderKey_of_operator (notVar : ∀ v, a ≠ .boundVar v)
    : orderKey id a = 1 :: id a.operator :: a.children.length :: orderKeys id a.children := by
  cases a with
  | boundVar v => exact absurd rfl (notVar v)
  | symbol s => simp [orderKey, Node.operator, Node.children, orderKeys]
  | apply k children => rw [orderKey, Node.operator, Node.children]
  | parameterized op children => rw [orderKey, Node.operator, Node.children]

theorem getTermOrder_of_operator (notVar : ∀ v, a ≠ .boundVar v) (notVar' : ∀ v, b ≠ .boundVar v)
    : getTermOrder id a b =
      if a.operator = b.operator then
        if a.children.length = b.children.length then firstDistinctOrder id a.children b.children
        else decide (a.children.length < b.children.length)
      else decide (id a.operator < id b.operator) := by
  have compare (childOrder : Bool) : operatorOrder id a b childOrder =
      if a.operator = b.operator then
        if a.children.length = b.children.length then childOrder
        else decide (a.children.length < b.children.length)
      else decide (id a.operator < id b.operator) := by
    cases b with
    | boundVar v => exact absurd rfl (notVar' v)
    | symbol s | apply k children | parameterized op children => rfl
  cases a with
  | boundVar v => exact absurd rfl (notVar v)
  | symbol s =>
      rw [getTermOrder, compare, Node.children, firstDistinctOrder]
      exact nofun
  | apply k children => rw [getTermOrder, compare, Node.children]
  | parameterized op children => rw [getTermOrder, compare, Node.children]

/-- Where children are compared by their texts, terms are. -/
theorem orderKey_lt_iff_of_children (injective : Function.Injective id) (isTerm : IsTerm a)
    (isTerm' : IsTerm b) (different : a ≠ b) (left right : List Nat)
    (children : a.children.length = b.children.length → a.children ≠ b.children →
      (orderKeys id a.children ++ left < orderKeys id b.children ++ right
        ↔ firstDistinctOrder id a.children b.children = true))
    : orderKey id a ++ left < orderKey id b ++ right ↔ getTermOrder id a b = true := by
  by_cases isVar : ∃ v, a = .boundVar v
  · obtain ⟨v, rfl⟩ := isVar
    by_cases isVar' : ∃ w, b = .boundVar w
    · obtain ⟨w, rfl⟩ := isVar'
      have differ : id (.boundVar v) ≠ id (.boundVar w) := fun same => different (injective same)
      simp [orderKey, getTermOrder, List.cons_lt_cons_iff, differ]
    · have notVar' : ∀ w, b ≠ .boundVar w := fun w isW => isVar' ⟨w, isW⟩
      have first : getTermOrder id (.boundVar v) b = true := by
        cases b with
        | boundVar w => exact absurd rfl (notVar' w)
        | symbol s | apply k children | parameterized op children => rw [getTermOrder]; exact nofun
      simp [orderKey, orderKey_of_operator notVar', first, List.cons_lt_cons_iff]
  · have notVar : ∀ v, a ≠ .boundVar v := fun v isV => isVar ⟨v, isV⟩
    by_cases isVar' : ∃ w, b = .boundVar w
    · obtain ⟨w, rfl⟩ := isVar'
      have last : getTermOrder id a (.boundVar w) = false := by
        cases a with
        | boundVar v => exact absurd rfl (notVar v)
        | symbol s | apply k children | parameterized op children => rw [getTermOrder, operatorOrder]
      simp [orderKey, orderKey_of_operator notVar, last, List.cons_lt_cons_iff]
    · have notVar' : ∀ w, b ≠ .boundVar w := fun w isW => isVar' ⟨w, isW⟩
      rw [getTermOrder_of_operator notVar notVar', orderKey_of_operator notVar,
        orderKey_of_operator notVar']
      simp only [List.cons_append, List.cons_lt_cons_iff, lt_irrefl, false_or, true_and]
      by_cases sameOperator : a.operator = b.operator
      · rw [if_pos sameOperator, sameOperator]
        simp only [lt_irrefl, false_or, true_and]
        by_cases sameLength : a.children.length = b.children.length
        · have differ : a.children ≠ b.children := fun same =>
            different (eq_of_operator_children isTerm isTerm' sameOperator same)
          rw [if_pos sameLength, sameLength, ← children sameLength differ]
          simp only [lt_irrefl, false_or, true_and]
        · rw [if_neg sameLength]
          simp [sameLength]
      · have differ : id a.operator ≠ id b.operator := fun same => sameOperator (injective same)
        rw [if_neg sameOperator]
        simp [differ]

mutual

theorem orderKey_append_lt_iff (injective : Function.Injective id) (a b : Node) (isTerm : IsTerm a)
    (isTerm' : IsTerm b) (different : a ≠ b) (left right : List Nat)
    : orderKey id a ++ left < orderKey id b ++ right ↔ getTermOrder id a b = true := by
  refine orderKey_lt_iff_of_children injective isTerm isTerm' different left right
    (fun sameLength differ => ?_)
  cases a with
  | boundVar v => exact absurd (List.length_eq_zero_iff.mp sameLength.symm).symm differ
  | symbol s => exact absurd (List.length_eq_zero_iff.mp sameLength.symm).symm differ
  | apply k children =>
      exact orderKeys_append_lt_iff injective children b.children (areTerms_children isTerm)
        (areTerms_children isTerm') sameLength differ left right
  | parameterized op children =>
      exact orderKeys_append_lt_iff injective children b.children (areTerms_children isTerm)
        (areTerms_children isTerm') sameLength differ left right

theorem orderKeys_append_lt_iff (injective : Function.Injective id) (as bs : List Node)
    (areTerms : AreTerms as) (areTerms' : AreTerms bs) (sameLength : as.length = bs.length)
    (different : as ≠ bs) (left right : List Nat)
    : orderKeys id as ++ left < orderKeys id bs ++ right ↔ firstDistinctOrder id as bs = true := by
  cases as with
  | nil => exact absurd (List.length_eq_zero_iff.mp sameLength.symm).symm different
  | cons a as =>
      cases bs with
      | nil => exact absurd sameLength (Nat.succ_ne_zero _)
      | cons b bs =>
          rw [AreTerms] at areTerms areTerms'
          rw [orderKeys, orderKeys, List.append_assoc, List.append_assoc, firstDistinctOrder]
          by_cases same : a = b
          · have differ : as ≠ bs := fun sameRest => different (by rw [same, sameRest])
            rw [same, if_neg (not_not_intro rfl), append_lt_append_iff]
            exact orderKeys_append_lt_iff injective as bs areTerms.2 areTerms'.2
              (Nat.succ.inj sameLength) differ left right
          · rw [if_pos same]
            exact orderKey_append_lt_iff injective a b areTerms.1 areTerms'.1 same _ _

end

mutual

theorem getTermOrder_self (a : Node) : getTermOrder id a a = false := by
  cases a with
  | boundVar v => simp [getTermOrder]
  | symbol s => simp [getTermOrder, operatorOrder]
  | apply k children =>
      simp [getTermOrder, operatorOrder, Node.children, firstDistinctOrder_self children]
  | parameterized op children =>
      simp [getTermOrder, operatorOrder, Node.children, firstDistinctOrder_self children]

theorem firstDistinctOrder_self (as : List Node) : firstDistinctOrder id as as = false := by
  cases as with
  | nil => simp [firstDistinctOrder]
  | cons a as => simp [firstDistinctOrder, firstDistinctOrder_self as]

end

theorem getTermOrder_iff (injective : Function.Injective id) (isTerm : IsTerm a) (isTerm' : IsTerm b)
    : getTermOrder id a b = true ↔ orderKey id a < orderKey id b := by
  by_cases same : a = b
  · simp [same, getTermOrder_self]
  · simpa using (orderKey_append_lt_iff injective a b isTerm isTerm' same [] []).symm

/-- Different terms have different texts, since their order does not depend on what follows. -/
theorem orderKey_injective (injective : Function.Injective id) (isTerm : IsTerm a) (isTerm' : IsTerm b)
    (same : orderKey id a = orderKey id b)
    : a = b := by
  by_contra different
  have low := orderKey_append_lt_iff injective a b isTerm isTerm' different [0] [1]
  have high := orderKey_append_lt_iff injective a b isTerm isTerm' different [1] [0]
  rw [same, append_lt_append_iff] at low high
  exact absurd (high.mpr (low.mp (by decide))) (by decide)

/-- The order of terms that are used to sort. -/
theorem getTermOrder_strictTotalOrder (injective : Function.Injective id)
    : IsStrictTotalOrder { n : Node // IsTerm n } (fun a b => getTermOrder id a b = true) := by
  let texts : (fun a b : { n : Node // IsTerm n } => getTermOrder id a b = true)
      ↪r (fun left right : List Nat => left < right) :=
    ⟨⟨fun n => orderKey id n, fun a b same => Subtype.ext (orderKey_injective injective a.2 b.2 same)⟩,
      fun {a b} => (getTermOrder_iff injective a.2 b.2).symm⟩
  exact texts.isStrictTotalOrder

end Ava6.Expr.Canonize
