import Ava6.Booleans.TheoryBoolFlatten

/-! The rewriter keeps the value of formulas, and its repetition ends. -/

namespace Ava6.Booleans

namespace TheoryBoolRewriter

variable {r : TheoryBoolRewriter} {D : Type} [DecidableEq D] {valuation : Node → Value D} {n a b c x y : Node} {k : Kind}
    {children : List Node}

/-- Distinct constants of one type have distinct values. -/
structure Interprets (r : TheoryBoolRewriter) (valuation : Node → Value D) : Prop where
  sorted : WellSorted valuation
  distinct {a b : Node} (first : r.isConst a = true) (second : r.isConst b = true) (sameType : a.typeOf = b.typeOf)
    (sameValue : eval valuation a = eval valuation b)
    : a = b

/-- The weight, where an equality in the wrong order counts for more than one in the right order. -/
def rank (r : TheoryBoolRewriter) (n : Node) : Nat :=
  2 * n.weight
    + match n with
      | .apply .equal [a, b] => if r.getId a > r.getId b then 1 else 0
      | _ => 0

theorem rank_lt (isLighter : a.weight < b.weight) : r.rank a < r.rank b := by
  have isLess : r.rank a ≤ 2 * a.weight + 1 := by
    unfold rank
    split
    · split <;> omega
    · exact Nat.le_succ _
  have isMore : 2 * b.weight ≤ r.rank b := Nat.le_add_right _ _
  omega

/-- The value is kept, and what is rewritten again is a formula of lower rank. -/
structure Correct (r : TheoryBoolRewriter) (n : Node) (response : RewriteResponse) : Prop where
  sound {D : Type} [DecidableEq D] {valuation : Node → Value D} (interprets : r.Interprets valuation)
    : Holds valuation response.node = Holds valuation n
  formula (isAgain : response.status = .again) : response.node.typeOf = some .bool
  smaller (isAgain : response.status = .again) : r.rank response.node < r.rank n

theorem Correct.done
    (sound : ∀ {D : Type} [DecidableEq D] {valuation : Node → Value D}, r.Interprets valuation →
      Holds valuation a = Holds valuation n)
    : r.Correct n ⟨.done, a⟩ :=
  ⟨sound, fun isAgain => (by cases isAgain), fun isAgain => by cases isAgain⟩

theorem Correct.self : r.Correct n ⟨.done, n⟩ := .done fun _ => rfl

/-- A response that asks for another round is correct if the node has the same value and became lighter. -/
theorem Correct.again (formula : a.typeOf = some .bool) (isLighter : a.weight < n.weight)
    (sound : ∀ {D : Type} [DecidableEq D] {valuation : Node → Value D}, r.Interprets valuation →
      Holds valuation a = Holds valuation n)
    : r.Correct n ⟨.again, a⟩ :=
  ⟨sound, fun _ => formula, fun _ => rank_lt isLighter⟩

attribute [local simp] Node.weight Node.weights Kind.weight Node.notNode

theorem Node.one_le_weight (n : Node) : 1 ≤ n.weight := by
  cases n with
  | apply k children => cases k <;> simp <;> omega
  | _ => simp

-- Negations

@[simp]
theorem holds_negate (n : Node) : Holds valuation (negate n) = !Holds valuation n := by
  unfold negate
  split <;> simp

theorem negate_spec (formula : n.typeOf = some .bool)
    : (negate n).typeOf = some .bool ∧ (negate n).weight ≤ n.weight + 2 := by
  unfold negate
  split
  · exact ⟨formula_not_iff.mp formula, by simp; omega⟩
  · exact ⟨formula_not_iff.mpr formula, by simp; omega⟩

theorem makeNegation_spec (n : Node) (formula : n.typeOf = some .bool)
    : (makeNegation n).typeOf = some .bool ∧ (makeNegation n).weight ≤ n.weight + 2
      ∧ ∀ {D : Type} [DecidableEq D] {valuation : Node → Value D},
        Holds valuation (makeNegation n) = !Holds valuation n := by
  fun_induction makeNegation n with
  | case1 b ih =>
      obtain ⟨isFormula, isLight, sound⟩ := ih (formula_not_iff.mp (formula_not_iff.mp formula))
      exact ⟨isFormula, by simp; omega, by simp [sound]⟩
  | case2 a => exact ⟨formula_not_iff.mp formula, by simp; omega, by simp⟩
  | case3 b => exact ⟨rfl, by simp, by simp⟩
  | case4 n => exact ⟨formula_not_iff.mpr formula, by simp; omega, by simp⟩

theorem Correct.negated (formula : a.typeOf = some .bool) (isLighter : a.weight + 2 < n.weight)
    (sound : ∀ {D : Type} [DecidableEq D] {valuation : Node → Value D}, r.Interprets valuation →
      (!Holds valuation a) = Holds valuation n)
    : r.Correct n ⟨.again, makeNegation a⟩ := by
  obtain ⟨isFormula, isLight, isNegation⟩ := makeNegation_spec a formula
  exact .again isFormula (Nat.lt_of_le_of_lt isLight isLighter) fun interprets => isNegation.trans (sound interprets)

/-- The two are equal or complements. -/
theorem holds_of_equalityParity (isRelated : equalityParity a b ≠ 0)
    : Holds valuation b = (if equalityParity a b = 1 then Holds valuation a else !Holds valuation a) := by
  unfold equalityParity at isRelated ⊢
  split
  · next same => simp [same]
  split
  · next isNot => simp [isNot]
  split
  · next isNot => simp [isNot]
  · next notFirst notSecond notThird =>
      rw [if_neg notFirst, if_neg notSecond, if_neg notThird] at isRelated
      exact absurd rfl isRelated

theorem eq_of_iff {x y u : Bool} (same : x = u ↔ y = u) : x = y := by
  cases x <;> cases y <;> cases u <;> simp_all

-- The rules

theorem preRewriteNot_correct (formula : a.typeOf = some .bool) : r.Correct (.apply .not [a]) (preRewriteNot a) := by
  unfold preRewriteNot
  split
  · exact .done fun _ => rfl
  · exact .again (formula_not_iff.mp formula) (by simp; omega) fun _ => by simp
  · exact .self

theorem flatten_chunks (size : Nat) (nodes : List Node) : (chunks size nodes).flatten = nodes := by
  fun_induction chunks size nodes with
  | case1 => rfl
  | case2 c rest ih => rw [List.flatten_cons, ih, List.cons_append, List.take_append_drop]

theorem flattenNode_correct {dominant : Bool} (nary : k = .or ∨ k = .and)
    (isDominant : ∀ truth, Truth truth → IsDominant truth k dominant)
    (formula : (Node.apply k children).typeOf = some .bool)
    : r.Correct (.apply k children) (flattenNode k (.apply k children) (.const dominant) (.const (!dominant))) := by
  have isDominant' {D : Type} [DecidableEq D] {valuation : Node → Value D} (interprets : r.Interprets valuation)
      : IsDominant (Holds valuation) k dominant :=
    isDominant _ ⟨D, _, valuation, interprets.sorted, rfl⟩
  have spec {D : Type} [DecidableEq D] {valuation : Node → Value D} (interprets : r.Interprets valuation) :=
    flattenedChildren_spec (isDominant' interprets) nary (fun _ => rfl) formula
  have light := (flattenedChildren_spec
    (isDominant (Holds fun _ => (Value.bool false : Value Unit)) ⟨Unit, _, _, fun _ _ => ⟨false, rfl⟩, rfl⟩) nary (fun _ => rfl) formula).2
  rw [flattenNode]
  generalize flattenedChildren k (.const dominant) (.const (!dominant)) (.apply k children) = result at spec light
  split
  · exact .done fun interprets => ((spec interprets).1 rfl).symm
  · refine .done fun interprets => ?_
    have isOther : Holds _ _ ≠ dominant := (not_congr ((spec interprets).2 [] rfl).1).mpr (by simp)
    exact (Bool.eq_not.mpr isOther).symm
  · next c =>
      obtain ⟨isFormula, isLight⟩ := (light [c] rfl).2 c List.mem_cons_self
      refine .again isFormula isLight fun interprets => eq_of_iff (u := dominant) ?_
      rw [((spec interprets).2 [c] rfl).1]
      simp
  · next childList _ _ =>
      have sound {D : Type} [DecidableEq D] {valuation : Node → Value D} (interprets : r.Interprets valuation)
          : Holds valuation (.apply k childList) = Holds valuation (.apply k children) := by
        refine eq_of_iff (u := dominant) ?_
        rw [((spec interprets).2 childList rfl).1]
        exact isDominant' interprets childList
      split
      · exact .done sound
      · refine .done fun interprets => (eq_of_iff (u := dominant) ?_).trans (sound interprets)
        have valued := isDominant' interprets
        rw [IsDominant] at valued
        rw [valued, valued childList]
        nth_rewrite 2 [← flatten_chunks maxChildren childList]
        simp only [List.mem_map, List.mem_flatten, exists_exists_and_eq_and, valued]
        grind

theorem eq_of_adjacentSame (isSame : adjacentSame (a :: children) = true) : ∀ c ∈ children, c = a := by
  induction children generalizing a with
  | nil => exact fun c isMem => by cases isMem
  | cons b rest ih =>
      rw [adjacentSame, Bool.and_eq_true, decide_eq_true_eq] at isSame
      obtain ⟨rfl, areSame⟩ := isSame
      exact List.forall_mem_cons.mpr ⟨rfl, ih areSame⟩

/-- Conjunctions and disjunctions are rewritten correctly: flattening keeps the value and a dominant child
decides it.
-/
theorem preRewriteNary_correct {trivial : Bool} (nary : k = .or ∨ k = .and)
    (isDominant : ∀ truth, Truth truth → IsDominant truth k trivial)
    (formula : (Node.apply k children).typeOf = some .bool)
    : r.Correct (.apply k children) (preRewriteNary k trivial children) := by
  unfold preRewriteNary
  split
  · next isTrivial =>
      refine .done fun {D _ valuation} interprets => ?_
      exact ((isDominant _ ⟨D, _, valuation, interprets.sorted, rfl⟩ children).mpr ⟨_, isTrivial, rfl⟩).symm
  split
  · exact flattenNode_correct nary isDominant formula
  split
  · next isSame =>
      obtain ⟨isLong, formulas⟩ := (nary_formula_iff nary).mp formula
      cases children with
      | nil => cases isLong
      | cons a rest =>
          refine .again (formulas a List.mem_cons_self) (Node.weight_lt List.mem_cons_self)
            fun {D _ valuation} interprets => eq_of_iff (u := trivial) ?_
          rw [isDominant _ ⟨D, _, valuation, interprets.sorted, rfl⟩]
          have areSame := eq_of_adjacentSame isSame
          refine ⟨fun isValue => ⟨a, List.mem_cons_self, isValue⟩, ?_⟩
          rintro ⟨c, isMem, isValue⟩
          rcases List.mem_cons.mp isMem with rfl | isRest
          · exact isValue
          · exact areSame c isRest ▸ isValue
  · exact .self

theorem preRewriteImplies_correct (formula : (Node.apply .implies [a, b]).typeOf = some .bool)
    : r.Correct (.apply .implies [a, b]) (preRewriteImplies a b) := by
  obtain ⟨first, second⟩ := implies_formula formula
  have isPositive := Node.one_le_weight b
  unfold preRewriteImplies
  split
  · next isTrue => exact .done fun _ => by rcases isTrue with rfl | rfl <;> simp
  split
  · next isFalse => exact .done fun _ => by simp [isFalse]
  split
  · next isTrue => exact .again second (by simp; omega) fun _ => by simp [isTrue]
  split
  · next isFalse => exact .negated first (by simp; omega) fun _ => by simp [isFalse]
  · exact .self

theorem preRewriteXor_correct (formula : (Node.apply .xor [a, b]).typeOf = some .bool)
    : r.Correct (.apply .xor [a, b]) (preRewriteXor a b) := by
  obtain ⟨first, second⟩ := xor_formula formula
  have isPositive := Node.one_le_weight a
  have isPositive' := Node.one_le_weight b
  unfold preRewriteXor
  split
  · next isTrue => exact .negated second (by simp; omega) fun _ => by simp [isTrue]
  split
  · next isTrue => exact .negated first (by simp; omega) fun _ => by simp [isTrue]
  split
  · next isFalse => exact .again second (by simp; omega) fun _ => by simp [isFalse]
  split
  · next isFalse => exact .again first (by simp; omega) fun _ => by simp [isFalse]
  split
  · next isSame => exact .done fun _ => by simp [isSame]
  split
  · next isNot => exact .done fun _ => by simp [isNot]
  split
  · next isNot => exact .done fun _ => by simp [isNot]
  · exact .self

theorem equal_formula_iff_types
    : (Node.apply .equal [a, b]).typeOf = some .bool ↔ a.typeOf.isSome = true ∧ a.typeOf = b.typeOf := by
  simp only [Node.typeOf, Node.typesOf]
  generalize Node.typeOf a = first, Node.typeOf b = second
  rcases first with _ | _ <;> rcases second with _ | _ <;> simp [Node.typeOfKind]

theorem formula_of_equal (isTyped : (Node.apply .equal [a, b]).typeOf.isSome = true)
    : (Node.apply .equal [a, b]).typeOf = some .bool := by
  simp only [Node.typeOf, Node.typesOf] at isTyped ⊢
  generalize Node.typeOf a = first, Node.typeOf b = second at isTyped
  rcases first with _ | _ <;> rcases second with _ | _ <;> simp_all [Node.typeOfKind]

theorem formula_of_notNode (isTyped : a.notNode.typeOf.isSome = true) : a.typeOf = some .bool := by
  simp only [Node.notNode, Node.typeOf, Node.typesOf] at isTyped
  generalize Node.typeOf a = type at isTyped
  rcases type with _ | (_ | _ | _) <;> simp [Node.typeOfKind] at isTyped ⊢

theorem constSide_spec {t : Node} (isSide : r.constSide x y = some (c, t))
    : r.isConst c = true ∧ (x = c ∧ y = t ∨ x = t ∧ y = c) := by
  unfold constSide at isSide
  split at isSide
  · next isConst =>
      cases isSide
      exact ⟨isConst, .inl ⟨rfl, rfl⟩⟩
  split at isSide
  · next isConst =>
      cases isSide
      exact ⟨isConst, .inr ⟨rfl, rfl⟩⟩
  · cases isSide

/-- An equality between a term and a constant, in one order or the other. -/
theorem holds_equal_const {t : Node} (isEqual : x = c ∧ y = t ∨ x = t ∧ y = c)
    : Holds valuation (.apply .equal [x, y]) = decide (eval valuation t = eval valuation c) := by
  rcases isEqual with ⟨rfl, rfl⟩ | ⟨rfl, rfl⟩
  · rw [holds_equal]
    exact decide_eq_decide.mpr eq_comm
  · exact holds_equal _ _

theorem typeOf_equal_const {t : Node} (isEqual : x = c ∧ y = t ∨ x = t ∧ y = c)
    (formula : (Node.apply .equal [x, y]).typeOf = some .bool)
    : c.typeOf = t.typeOf := by
  have sameType := (equal_formula_iff_types.mp formula).2
  rcases isEqual with ⟨rfl, rfl⟩ | ⟨rfl, rfl⟩
  · exact sameType
  · exact sameType.symm

/-- The term cannot have the values of two constants. -/
theorem rewriteViaEqConstEq_spec {ret : Node} (formula : (Node.apply .equal [a, b]).typeOf = some .bool)
    (isResult : r.rewriteViaEqConstEq a b = some ret)
    : ret.typeOf = some .bool ∧ (r.isConst ret = false → ret.weight < (Node.apply .equal [a, b]).weight)
      ∧ ∀ {D : Type} [DecidableEq D] {valuation : Node → Value D}, r.Interprets valuation →
        Holds valuation ret = Holds valuation (.apply .equal [a, b]) := by
  unfold rewriteViaEqConstEq at isResult
  split at isResult
  · next x y z w =>
      obtain ⟨⟨c, t⟩, isSide, isOther⟩ := Option.bind_eq_some_iff.mp isResult
      obtain ⟨d, isOther, isRet⟩ := Option.map_eq_some_iff.mp isOther
      obtain ⟨isConst, isEqual⟩ := constSide_spec isSide
      have isEqual' : r.isConst d = true ∧ (z = d ∧ w = t ∨ z = t ∧ w = d) := by
        split at isOther
        · next same =>
            cases isOther
            exact ⟨same.2, .inr ⟨same.1, rfl⟩⟩
        split at isOther
        · next same =>
            cases isOther
            exact ⟨same.2, .inl ⟨rfl, same.1⟩⟩
        · cases isOther
      obtain ⟨first, second⟩ : (Node.apply .equal [x, y]).typeOf = some .bool
          ∧ (Node.apply .equal [z, w]).typeOf = some .bool := by
        obtain ⟨isTyped, sameType⟩ := equal_formula_iff_types.mp formula
        have isFormula := formula_of_equal isTyped
        exact ⟨isFormula, sameType ▸ isFormula⟩
      have sameType := (typeOf_equal_const isEqual first).trans (typeOf_equal_const isEqual'.2 second).symm
      have sides {D : Type} [DecidableEq D] {valuation : Node → Value D} (interprets : r.Interprets valuation)
          : Holds valuation (.apply .equal [.apply .equal [x, y], .apply .equal [z, w]])
            = (decide (eval valuation t = eval valuation c) == decide (eval valuation t = eval valuation d)) := by
        rw [holds_equal_formulas interprets.sorted first second, holds_equal_const isEqual, holds_equal_const isEqual'.2]
      split at isRet
      · next isSame =>
          subst isRet
          refine ⟨rfl, fun notConst => ?_, fun interprets => ?_⟩
          · rw [r.isConst_const] at notConst
            cases notConst
          · rw [sides interprets, isSame]
            simp
      · next differs =>
          subst isRet
          refine ⟨(nary_formula_iff (.inr rfl)).mpr ⟨Nat.le_refl 2, ?_⟩, fun _ => by simp; omega, fun {D _ valuation} interprets => ?_⟩
          · simpa using ⟨formula_not_iff.mpr first, formula_not_iff.mpr second⟩
          · rw [sides interprets]
            simp only [holds_and, holds_notNode, List.all_cons, List.all_nil, Bool.and_true, holds_equal_const isEqual,
              holds_equal_const isEqual'.2]
            by_cases isFirst : eval valuation t = eval valuation c
            · have isOther : ¬ eval valuation t = eval valuation d := fun isSecond =>
                differs (interprets.distinct isConst isEqual'.1 sameType (isFirst.symm.trans isSecond)).symm
              simp [isFirst, isFirst ▸ isOther]
            · simp [isFirst]
  · cases isResult

/-- The sides are formulas if one is a truth value or the negation of the other. -/
theorem sides_formulas (formula : (Node.apply .equal [a, b]).typeOf = some .bool) (value : Bool)
    (isBoolean : a = .const value ∨ b = .const value ∨ a = b.notNode ∨ b = a.notNode)
    : a.typeOf = some .bool ∧ b.typeOf = some .bool
      ∧ ∀ {D : Type} [DecidableEq D] {valuation : Node → Value D}, r.Interprets valuation →
        Holds valuation (.apply .equal [a, b]) = (Holds valuation a == Holds valuation b) := by
  obtain ⟨isTyped, sameType⟩ := equal_formula_iff_types.mp formula
  have first : a.typeOf = some .bool := by
    rcases isBoolean with rfl | rfl | rfl | rfl
    · rfl
    · exact sameType
    · exact sameType.trans (formula_of_notNode isTyped)
    · exact formula_of_notNode (sameType ▸ isTyped)
  exact ⟨first, sameType ▸ first, fun interprets => holds_equal_formulas interprets.sorted first (sameType ▸ first)⟩

/-- Equalities are rewritten correctly, by cases on the sides. -/
theorem preRewriteEqual_correct (formula : (Node.apply .equal [a, b]).typeOf = some .bool)
    : r.Correct (.apply .equal [a, b]) (r.preRewriteEqual a b) := by
  have isPositive := Node.one_le_weight a
  have isPositive' := Node.one_le_weight b
  unfold preRewriteEqual
  split
  · next isTrue =>
      obtain ⟨-, second, sides⟩ := sides_formulas (r := r) formula true (.inl isTrue)
      exact .again second (by simp; omega) fun interprets => by
        rw [sides interprets, isTrue]
        simp
  split
  · next isTrue =>
      obtain ⟨first, -, sides⟩ := sides_formulas (r := r) formula true (.inr (.inl isTrue))
      exact .again first (by simp; omega) fun interprets => by
        rw [sides interprets, isTrue]
        simp
  split
  · next isFalse =>
      obtain ⟨-, second, sides⟩ := sides_formulas (r := r) formula false (.inl isFalse)
      exact .negated second (by simp; omega) fun interprets => by
        rw [sides interprets, isFalse]
        simp
  split
  · next isFalse =>
      obtain ⟨first, -, sides⟩ := sides_formulas (r := r) formula false (.inr (.inl isFalse))
      exact .negated first (by simp; omega) fun interprets => by
        rw [sides interprets, isFalse]
        simp
  split
  · next isSame => exact .done fun _ => by simp [isSame, holds_equal]
  split
  · next isNot =>
      obtain ⟨-, -, sides⟩ := sides_formulas (r := r) formula true (.inr (.inr (.inl isNot)))
      exact .done fun interprets => by
        rw [sides interprets, isNot]
        simp
  split
  · next isNot =>
      obtain ⟨-, -, sides⟩ := sides_formulas (r := r) formula true (.inr (.inr (.inr isNot)))
      exact .done fun interprets => by
        rw [sides interprets, isNot]
        simp
  split
  · next ret isResult =>
      obtain ⟨isFormula, isLight, sound⟩ := rewriteViaEqConstEq_spec formula isResult
      split
      · exact .done sound
      · next notConst => exact .again isFormula (isLight (by simpa using notConst)) sound
  split
  · next isLater =>
      obtain ⟨isTyped, sameType⟩ := equal_formula_iff_types.mp formula
      refine ⟨fun _ => decide_eq_decide.mpr eq_comm,
        fun _ => equal_formula_iff_types.mpr ⟨sameType ▸ isTyped, sameType.symm⟩, fun _ => ?_⟩
      simp only [rank, Node.weight, Node.weights, if_pos isLater, if_neg (Nat.lt_asymm isLater)]
      omega
  · exact .self

theorem preRewriteIteConst_correct (formula : (Node.apply .ite [c, x, y]).typeOf = some .bool)
    : r.Correct (.apply .ite [c, x, y]) (preRewriteIteConst c x y) := by
  obtain ⟨condition, first, second⟩ := ite_formula_iff.mp formula
  have isPositive := Node.one_le_weight x
  have isPositive' := Node.one_le_weight y
  obtain ⟨isFormula, isLight⟩ := negate_spec condition
  have pair {k : Kind} {a b : Node} (nary : k = .or ∨ k = .and) (first : a.typeOf = some .bool)
      (second : b.typeOf = some .bool) : (Node.apply k [a, b]).typeOf = some .bool :=
    (nary_formula_iff nary).mpr ⟨Nat.le_refl 2, by simpa using ⟨first, second⟩⟩
  unfold preRewriteIteConst
  split
  · next isTrue =>
      exact .again (pair (.inl rfl) condition second) (by simp; omega) fun _ => by
        rw [holds_ite]
        split <;> simp_all
  split
  · next isFalse =>
      exact .again (pair (.inr rfl) isFormula second) (by simp; omega) fun _ => by
        rw [holds_ite]
        split <;> simp_all
  split
  · next isTrue =>
      exact .again (pair (.inl rfl) isFormula first) (by simp; omega) fun _ => by
        rw [holds_ite]
        split <;> simp_all
  split
  · next isFalse =>
      exact .again (pair (.inr rfl) condition first) (by simp; omega) fun _ => by
        rw [holds_ite]
        split <;> simp_all
  · exact .self

/-- The branches are replaced by others with their values where they count. -/
theorem Correct.ite {x' y' : Node} (formula : (Node.apply .ite [c, x, y]).typeOf = some .bool)
    (first : x'.typeOf = some .bool) (second : y'.typeOf = some .bool)
    (isLighter : x'.weight + y'.weight < x.weight + y.weight)
    (sound : ∀ {D : Type} [DecidableEq D] {valuation : Node → Value D},
      if Holds valuation c then Holds valuation x' = Holds valuation x else Holds valuation y' = Holds valuation y)
    : r.Correct (.apply .ite [c, x, y]) ⟨.again, .apply .ite [c, x', y']⟩ := by
  refine .again (ite_formula_iff.mpr ⟨(ite_formula_iff.mp formula).1, first, second⟩) (by simp; omega)
    fun {D _ valuation} _ => ?_
  have sound := @sound D _ valuation
  rw [holds_ite, holds_ite]
  split at sound <;> simp_all

theorem nestedElse_correct (formula : (Node.apply .ite [c, x, y]).typeOf = some .bool)
    : r.Correct (.apply .ite [c, x, y]) (preRewriteIteNested.nestedElse c x y) := by
  obtain ⟨-, first, second⟩ := ite_formula_iff.mp formula
  unfold preRewriteIteNested.nestedElse
  split
  · next c' x' y' =>
      obtain ⟨-, first', second'⟩ := ite_formula_iff.mp second
      split
      · next isRelated =>
          refine .ite formula first (by split <;> assumption) (by split <;> simp <;> omega) ?_
          intros
          split
          · rfl
          · rw [holds_ite, holds_of_equalityParity isRelated]
            split <;> simp_all
      · exact preRewriteIteConst_correct formula
  · exact preRewriteIteConst_correct formula

theorem preRewriteIteNested_correct (formula : (Node.apply .ite [c, x, y]).typeOf = some .bool)
    : r.Correct (.apply .ite [c, x, y]) (preRewriteIteNested c x y) := by
  obtain ⟨-, first, second⟩ := ite_formula_iff.mp formula
  unfold preRewriteIteNested
  split
  · next c' x' y' =>
      obtain ⟨-, first', second'⟩ := ite_formula_iff.mp first
      split
      · next isRelated =>
          refine .ite formula (by split <;> assumption) second (by split <;> simp <;> omega) ?_
          intros
          split
          · rw [holds_ite, holds_of_equalityParity isRelated]
            split <;> simp_all
          · rfl
      · exact nestedElse_correct formula
  · exact nestedElse_correct formula

theorem two_le_weight (formula : n.typeOf = some .bool) (notConst : r.isConst n = false) : 2 ≤ n.weight := by
  cases n with
  | const b =>
      rw [r.isConst_const] at notConst
      cases notConst
  | constInteger i => cases formula
  | apply k children => cases k <;> simp <;> omega

/-- Conditionals are rewritten correctly, by cases on the condition and then on the branches. -/
theorem preRewriteIte_correct (formula : (Node.apply .ite [c, x, y]).typeOf = some .bool)
    : r.Correct (.apply .ite [c, x, y]) (r.preRewriteIte c x y) := by
  obtain ⟨condition, first, second⟩ := ite_formula_iff.mp formula
  unfold preRewriteIte
  split
  · next isConst =>
      obtain ⟨b, rfl⟩ := r.const_of_isConst isConst condition
      cases b
      · exact .again second (by simp; omega) fun _ => by simp
      · exact .again first (by simp; omega) fun _ => by simp
  split
  · next isSame =>
      refine .again condition (by simp; omega) fun _ => ?_
      rw [holds_ite]
      split <;> simp_all
  split
  · next isNot =>
      refine .negated condition (by simp; omega) fun _ => ?_
      rw [holds_ite]
      split <;> simp_all
  split
  · refine .again (ite_formula_iff.mpr ⟨formula_not_iff.mp condition, second, first⟩) (by simp; omega) fun _ => ?_
    rw [holds_ite, holds_ite]
    split <;> simp_all
  unfold preRewriteIteParity
  split
  · next isRelated =>
      split
      · next isSame =>
          refine .again first (by simp; omega) fun _ => ?_
          rw [holds_ite, holds_of_equalityParity isRelated, if_pos isSame]
          split <;> rfl
      · next isNot =>
          refine .again ((equal_formula_iff condition).mpr first) (by simp; omega) fun {D _ valuation} interprets => ?_
          rw [holds_ite, holds_of_equalityParity isRelated, if_neg isNot,
            holds_equal_formulas interprets.sorted condition first]
          cases Holds valuation c <;> cases Holds valuation x <;> rfl
  split
  · next isRelated =>
      have isHeavy := two_le_weight first isRelated.1
      refine .ite formula rfl second (by simp; omega) ?_
      intros
      split
      · rw [holds_of_equalityParity isRelated.2]
        split <;> simp_all
      · rfl
  split
  · next isRelated =>
      have isHeavy := two_le_weight second isRelated.1
      refine .ite formula first rfl (by simp; omega) ?_
      intros
      split
      · rfl
      · rw [holds_of_equalityParity isRelated.2]
        split <;> simp_all
  · exact preRewriteIteNested_correct formula

/-- Every formula is rewritten correctly, by the lemmas of the kinds. -/
theorem preRewrite_correct (formula : n.typeOf = some .bool) : r.Correct n (r.preRewrite n) := by
  unfold preRewrite
  split
  · exact preRewriteNot_correct (formula_not_iff.mp formula)
  · exact preRewriteNary_correct (.inl rfl) (fun _ isTruth children => by rw [isTruth.or, List.any_eq_true]) formula
  · exact preRewriteNary_correct (.inr rfl) (fun _ isTruth children => by rw [isTruth.and]; simp) formula
  · exact preRewriteImplies_correct formula
  · exact preRewriteEqual_correct formula
  · exact preRewriteXor_correct formula
  · exact preRewriteIte_correct formula
  · exact .self

/-- Every step of the rewriting of a formula keeps its value, and the repetition ends. -/
theorem rewriteAgain_correct (r : TheoryBoolRewriter) (n : Node) (formula : n.isFormula = true)
    : ∃ result, (∀ fuel, r.rank n < fuel → r.rewriteAgain fuel n = some result)
      ∧ ∀ {D : Type} [DecidableEq D] {valuation : Node → Value D}, r.Interprets valuation →
        Holds valuation (r.preRewrite n).node = Holds valuation n ∧ Holds valuation result = Holds valuation n := by
  rw [formula_iff_typeOf] at formula
  induction hrank : r.rank n using Nat.strongRecOn generalizing n with
  | _ size ih =>
      subst hrank
      have correct := preRewrite_correct (r := r) formula
      cases isStatus : (r.preRewrite n).status with
      | done =>
          refine ⟨(r.preRewrite n).node, fun fuel isMore => ?_, fun interprets =>
            ⟨correct.sound interprets, correct.sound interprets⟩⟩
          obtain ⟨fuel, rfl⟩ := Nat.exists_eq_succ_of_ne_zero (Nat.ne_zero_of_lt isMore)
          rw [rewriteAgain, isStatus]
      | again =>
          have isSmaller := correct.smaller isStatus
          obtain ⟨result, isResult, sound⟩ := ih _ isSmaller _ (correct.formula isStatus) rfl
          refine ⟨result, fun fuel isMore => ?_, fun interprets =>
            ⟨correct.sound interprets, (sound interprets).2.trans (correct.sound interprets)⟩⟩
          obtain ⟨fuel, rfl⟩ := Nat.exists_eq_succ_of_ne_zero (Nat.ne_zero_of_lt isMore)
          rw [rewriteAgain, isStatus]
          exact isResult fuel (Nat.lt_of_lt_of_le isSmaller (Nat.lt_succ_iff.mp isMore))

/-- The only constants are truth values and integers, and nodes are in order. -/
theorem const_of_getKind (isConstant : n.getKind.isNone = true) (formula : n.typeOf = some .bool) : ∃ b, n = .const b := by
  cases n with
  | const b => exact ⟨b, rfl⟩
  | constInteger i => cases formula
  | apply k children => cases isConstant

def inOrder : TheoryBoolRewriter := ⟨fun n => n.getKind.isNone, fun _ => 0, fun _ => rfl, const_of_getKind⟩

/-- `(x = 3) = (x = 4)`. -/
def equalToConstants : Node :=
  .apply .equal [.apply .equal [.apply (.op 0 .int) [], .constInteger 3],
    .apply .equal [.apply (.op 0 .int) [], .constInteger 4]]

theorem rewriteAgain_equalToConstants
    : ∃ result, (∀ fuel, inOrder.rank equalToConstants < fuel → inOrder.rewriteAgain fuel equalToConstants = some result)
      ∧ ∀ {D : Type} [DecidableEq D] {valuation : Node → Value D}, inOrder.Interprets valuation →
        Holds valuation (inOrder.preRewrite equalToConstants).node = Holds valuation equalToConstants
        ∧ Holds valuation result = Holds valuation equalToConstants :=
  rewriteAgain_correct inOrder equalToConstants (by decide)

end TheoryBoolRewriter

end Ava6.Booleans
