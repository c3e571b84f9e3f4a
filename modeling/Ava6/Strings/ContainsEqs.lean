import Mathlib
import Ava6.Strings.ArithEntail

/-! Containment as equalities, where the contained word is entailed to be at least as long as the containing one.
-/

namespace Ava6.Strings

def sumOf : List IntTerm → IntTerm
  | [] => .const 0
  | [y] => y
  | ys => .add (.ofList ys)

/-- The summands from some index on are removed one by one, as long as the sum is entailed to be at least `x`. -/
def inferZerosFrom (aent : ArithEntail) (x : IntTerm) (ys zeroYs : List IntTerm)
    : List IntTerm → List IntTerm × List IntTerm
  | [] => (ys, zeroYs)
  | yi :: rest =>
      if aent.checkGeq (sumOf (ys ++ rest)) x then inferZerosFrom aent x ys (zeroYs ++ [yi]) rest
      else inferZerosFrom aent x (ys ++ [yi]) zeroYs rest

/-- The summands that are left and those that are removed, if their sum is entailed to be at least `x`. -/
def inferZerosInSumGeq (aent : ArithEntail) (x : IntTerm) (ys : List IntTerm) : Option (List IntTerm × List IntTerm) :=
  if aent.checkGeq (sumOf ys) x then some (inferZerosFrom aent x [] [] ys) else none

/-- The number of children of a term; `arity` is that of the terms that stand for other operators. -/
def StringTerm.numChildren (arity : Nat → Nat) : StringTerm → Nat
  | .const _ => 0
  | .var name => arity name
  | .concat children => children.toList.length
  | .unit _ | .fromInt _ => 1
  | .substr _ _ _ | .replace _ _ _ => 3

/-- The argument of a length. -/
def lengthArgument : IntTerm → StringTerm
  | .length s => s
  | _ => .const []

/-- A conjunction of equalities. -/
abbrev Equalities := List (StringTerm × StringTerm)

def Equalities.holds (A : Assignment) (equalities : Equalities) : Prop :=
  ∀ equality ∈ equalities, equality.1.eval A = equality.2.eval A

/-- The equalities for the lengths of components that are left and of those that are zero. -/
def equalitiesOf (x y : StringTerm) (yLens zeroLens : List IntTerm) : Equalities :=
  match y with
  | .concat _ =>
      let cs := yLens.map lengthArgument
      (x, mkConcat cs) :: zeroLens.map fun zeroLen => (lengthArgument zeroLen, .const [])
  | y => if zeroLens.length = 1 then [(y, .const [])] else [(x, y)]

def inferEqsFromContains (aent : ArithEntail) (arity : Nat → Nat) (x y : StringTerm) : Option Equalities :=
  let yLens := (getConcat y).map IntTerm.length
  if x = .const [] then some (equalitiesOf x y [] yLens)
  else
    match inferZerosInSumGeq aent (.length x) yLens with
    | none => none
    | some (yLens, zeroLens) =>
        if yLens.length = y.numChildren arity then some [(x, y)] else some (equalitiesOf x y yLens zeroLens)

variable {aent : ArithEntail} {A : Assignment}

theorem eval_sumOf (terms : List StringTerm)
    : (sumOf (terms.map IntTerm.length)).eval A = (wordOf A terms).length := by
  have sums : ∀ terms : List StringTerm,
      (IntTerms.ofList (terms.map IntTerm.length)).sum A = (wordOf A terms).length := by
    intro terms
    induction terms with
    | nil => rfl
    | cons s terms ih =>
        rw [List.map_cons, IntTerms.ofList, IntTerms.sum, ih, IntTerm.eval, wordOf_cons, List.length_append, Nat.cast_add]
  rcases terms with _ | ⟨s, _ | ⟨second, rest⟩⟩
  · rw [List.map_nil, sumOf, IntTerm.eval, wordOf_nil, List.length_nil, Nat.cast_zero]
  · rw [List.map_singleton, sumOf, IntTerm.eval, wordOf_singleton]
  · change (IntTerm.add (.ofList ((s :: second :: rest).map IntTerm.length))).eval A = _
    rw [IntTerm.eval, sums]

/-- The components that are left and those that are removed: those that are left are long enough, and are all if the
others are empty.
-/
structure Splits (x : StringTerm) (children kept zeros : List StringTerm) : Prop where
  length_eq
    : ∀ A, (wordOf A children).length = (wordOf A kept).length + (wordOf A zeros).length
  word_eq : ∀ A, (∀ s ∈ zeros, s.eval A = []) → wordOf A kept = wordOf A children
  le_length : ∀ A, (x.eval A).length ≤ (wordOf A kept).length
  count_eq : kept.length + zeros.length = children.length

/-- The loop keeps that the summands kept and removed are the word, and the kept ones are no shorter than
needed, by induction on what is left.
-/
theorem splits_inferZerosFrom {x : StringTerm} {children : List StringTerm} (ys zeroYs rest : List StringTerm)
    (lengthEq
      : ∀ A, (wordOf A children).length
          = (wordOf A ys).length + (wordOf A zeroYs).length + (wordOf A rest).length)
    (wordEq : ∀ A, (∀ s ∈ zeroYs, s.eval A = []) → wordOf A (ys ++ rest) = wordOf A children)
    (leLength : ∀ A, (x.eval A).length ≤ (wordOf A (ys ++ rest)).length)
    (countEq : ys.length + zeroYs.length + rest.length = children.length)
    : ∃ kept zeros,
        inferZerosFrom aent (.length x) (ys.map .length) (zeroYs.map .length) (rest.map .length)
          = (kept.map .length, zeros.map .length)
        ∧ Splits x children kept zeros := by
  induction rest generalizing ys zeroYs with
  | nil =>
      rw [List.append_nil] at wordEq leLength
      exact ⟨ys, zeroYs, rfl, fun A => by simpa using lengthEq A, wordEq, leLength, countEq⟩
  | cons yi rest ih =>
      rw [List.map_cons, inferZerosFrom, ← List.map_append]
      split
      · rename_i checked
        have shorter : ∀ A, (x.eval A).length ≤ (wordOf A (ys ++ rest)).length := by
          intro A
          have isLess := aent.le_of_checkGeq (A := A) checked
          rw [eval_sumOf, IntTerm.eval] at isLess
          exact Int.ofNat_le.mp isLess
        obtain ⟨kept, zeros, isResult, splits⟩ := ih ys (zeroYs ++ [yi])
          (fun A => by
            rw [lengthEq A, wordOf_cons, wordOf_append, wordOf_singleton, List.length_append, List.length_append]
            omega)
          (fun A areEmpty => by
            have isEmpty := areEmpty yi (by simp)
            rw [← wordEq A fun s inZeros => areEmpty s (by simp [inZeros]), wordOf_append, wordOf_append, wordOf_cons,
              isEmpty, List.nil_append])
          shorter (by rw [List.length_append]; simp only [List.length_cons, List.length_nil] at *; omega)
        refine ⟨kept, zeros, ?_, splits⟩
        rw [← isResult, List.map_append]
        rfl
      · obtain ⟨kept, zeros, isResult, splits⟩ := ih (ys ++ [yi]) zeroYs
          (fun A => by
            rw [lengthEq A, wordOf_cons, wordOf_append, wordOf_singleton, List.length_append, List.length_append]
            omega)
          (fun A areEmpty => by simpa using wordEq A areEmpty)
          (fun A => by simpa using leLength A)
          (by rw [List.length_append]; simp only [List.length_cons, List.length_nil] at *; omega)
        refine ⟨kept, zeros, ?_, splits⟩
        rw [← isResult, List.map_append]
        rfl

theorem splits_inferZerosInSumGeq {x : StringTerm} {children : List StringTerm} {yLens zeroLens : List IntTerm}
    (inferred : inferZerosInSumGeq aent (.length x) (children.map .length) = some (yLens, zeroLens))
    : ∃ kept zeros, yLens = kept.map .length ∧ zeroLens = zeros.map .length ∧ Splits x children kept zeros := by
  rw [inferZerosInSumGeq] at inferred
  split at inferred
  · rename_i checked
    obtain ⟨kept, zeros, isResult, splits⟩ := @splits_inferZerosFrom aent x children [] [] children
      (fun A => by simp) (fun A _ => rfl)
      (fun A => by
        have isLess := aent.le_of_checkGeq (A := A) checked
        rw [eval_sumOf, IntTerm.eval] at isLess
        exact Int.ofNat_le.mp isLess)
      (by simp)
    obtain ⟨rfl, rfl⟩ := Prod.mk.inj (isResult.symm.trans (Option.some.inj inferred))
    exact ⟨kept, zeros, rfl, rfl, splits⟩
  · cases inferred

theorem holds_singleton {a b : StringTerm} : Equalities.holds A [(a, b)] ↔ a.eval A = b.eval A := by
  simp [Equalities.holds]

theorem map_lengthArgument (terms : List StringTerm) : (terms.map IntTerm.length).map lengthArgument = terms := by
  rw [List.map_map]
  exact List.map_id terms

/-- A word that is at least as long as the one that contains it is equal to it. -/
theorem isInfix_iff_eq {w t : Word} (isLonger : w.length ≤ t.length) : t <:+: w ↔ w = t :=
  ⟨fun contained => (contained.eq_of_length_le isLonger).symm, fun same => same ▸ List.infix_rfl⟩

theorem holds_equalitiesOf_concat {x : StringTerm} {children : StringTerms} {kept zeros : List StringTerm}
    : Equalities.holds A (equalitiesOf x (.concat children) (kept.map .length) (zeros.map .length))
      ↔ x.eval A = wordOf A kept ∧ ∀ s ∈ zeros, s.eval A = [] := by
  rw [equalitiesOf, map_lengthArgument, Equalities.holds, List.forall_mem_cons, eval_mkConcat, List.map_map,
    List.forall_mem_map]
  simp only [Function.comp_apply, lengthArgument, eval_const]

variable {x y : StringTerm} {kept zeros : List StringTerm}

theorem Splits.le_length_right (splits : Splits x (getConcat y) kept zeros) (A : Assignment)
    : (x.eval A).length ≤ (y.eval A).length := by
  rw [← wordOf_getConcat y, splits.length_eq]
  exact le_trans (splits.le_length A) (Nat.le_add_right _ _)

/-- A term that is not a concatenation is empty if its length is not needed, as the containing word is then empty. -/
theorem holds_single (splits : Splits x [y] kept zeros)
    : Equalities.holds A (if (zeros.map IntTerm.length).length = 1 then [(y, .const [])] else [(x, y)])
      ↔ x.eval A = y.eval A := by
  split
  · rename_i isRemoved
    have counts := splits.count_eq
    rw [List.length_map] at isRemoved
    rw [isRemoved, List.length_singleton] at counts
    obtain rfl : kept = [] := List.eq_nil_of_length_eq_zero (by omega)
    have isEmpty : x.eval A = [] := List.eq_nil_of_length_eq_zero (Nat.le_zero.mp (splits.le_length A))
    rw [holds_singleton, eval_const, isEmpty, eq_comm]
  · exact holds_singleton

/-- The components that are left are the containing word, and the others are empty. -/
theorem holds_equalitiesOf_iff (splits : Splits x (getConcat y) kept zeros)
    : Equalities.holds A (equalitiesOf x y (kept.map .length) (zeros.map .length)) ↔ y.eval A <:+: x.eval A := by
  rw [isInfix_iff_eq (splits.le_length_right A)]
  have word := splits.word_eq A
  have lengths := splits.length_eq A
  have isLess := splits.le_length A
  rw [wordOf_getConcat] at word lengths
  match y with
  | .concat children =>
      rw [holds_equalitiesOf_concat]
      constructor
      · rintro ⟨isKept, areEmpty⟩
        rw [isKept, word areEmpty]
      · intro same
        have areEmpty : ∀ s ∈ zeros, s.eval A = [] := by
          have noLength : wordOf A zeros = [] := List.eq_nil_of_length_eq_zero (by rw [same] at isLess; omega)
          exact List.forall_mem_map.mp (List.flatten_eq_nil_iff.mp noLength)
        exact ⟨same.trans (word areEmpty).symm, areEmpty⟩
  | .const _ | .var _ | .unit _ | .substr _ _ _ | .replace _ _ _ | .fromInt _ => exact holds_single splits

/-- The equalities that are inferred hold in just the interpretations where the word is contained. -/
theorem inferEqsFromContains_iff (aent : ArithEntail) (arity : Nat → Nat) (x y : StringTerm) (equalities : Equalities)
    (inferred : inferEqsFromContains aent arity x y = some equalities) (A : Assignment)
    : equalities.holds A ↔ y.eval A <:+: x.eval A := by
  rw [inferEqsFromContains] at inferred
  split at inferred
  · -- nothing but the empty word is contained in the empty word
    rename_i isEmpty
    cases inferred
    have splits : Splits x (getConcat y) [] (getConcat y) := by
      subst isEmpty
      refine ⟨fun A => by simp, fun A areEmpty => ?_, fun A => by simp, by simp⟩
      exact (List.flatten_eq_nil_iff.mpr (List.forall_mem_map.mpr areEmpty)).symm
    exact holds_equalitiesOf_iff splits
  · split at inferred
    · cases inferred
    · rename_i yLens zeroLens isInferred
      obtain ⟨kept, zeros, rfl, rfl, splits⟩ := splits_inferZerosInSumGeq isInferred
      split at inferred
      · cases inferred
        rw [isInfix_iff_eq (splits.le_length_right A), holds_singleton]
      · cases inferred
        exact holds_equalitiesOf_iff splits

/-- The lengths of `x ++ y` and `x` differ by the length of `y`. -/
def lengthDifference : IntTerm :=
  .sub (.add (.ofList [.length (.var 0), .length (.var 1)])) (.length (.var 0))

theorem nonneg_lengthDifference (A : Assignment) : 0 ≤ lengthDifference.eval A := by
  simp [lengthDifference, IntTerm.eval, IntTerms.ofList, IntTerms.sum]

def secondLength : ArithEntail where
  __ := (default : ArithEntail)
  check a strict := decide (a = lengthDifference) && !strict
  nonneg_of_check A _ _ checked := of_decide_eq_true (Bool.and_eq_true_iff.mp checked).1 ▸ nonneg_lengthDifference A
  pos_of_check _ _ checked := Bool.noConfusion (Bool.and_eq_true_iff.mp checked).2

/-- The empty word contains `x ++ y ++ x` if and only if `x` and `y` are empty, and a variable `x` contains `x ++ y` if
and only if the summand `y` is empty.
-/
theorem inferEqsFromContains_iff_empty
    : let A : Assignment := ⟨fun _ => [99], fun _ => 0⟩
      (Equalities.holds A [(.const [], .const []), (.var 0, .const []), (.var 1, .const []), (.var 0, .const [])]
        ↔ (StringTerm.concat (.ofList [.var 0, .var 1, .var 0])).eval A <:+: (StringTerm.const []).eval A)
      ∧ (Equalities.holds A [(.var 0, .var 0), (.var 1, .const [])]
        ↔ (StringTerm.concat (.ofList [.var 0, .var 1])).eval A <:+: (StringTerm.var 0).eval A) :=
  ⟨inferEqsFromContains_iff default (fun _ => 0) (.const []) (.concat (.ofList [.var 0, .var 1, .var 0]))
      [(.const [], .const []), (.var 0, .const []), (.var 1, .const []), (.var 0, .const [])] (by decide)
      ⟨fun _ => [99], fun _ => 0⟩,
    inferEqsFromContains_iff secondLength (fun _ => 0) (.var 0) (.concat (.ofList [.var 0, .var 1]))
      [(.var 0, .var 0), (.var 1, .const [])] (by decide) ⟨fun _ => [99], fun _ => 0⟩⟩

end Ava6.Strings
