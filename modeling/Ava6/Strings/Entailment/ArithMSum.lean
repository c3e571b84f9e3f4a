import Ava6.Library.MonomialSum
import Ava6.Strings.Entailment.Node

/-! Sums of monomials over nodes, and solving an equality of integers for a node. A sum is a map from variables to
coefficients, in the order of the identifiers of nodes; the constant has no variable, and a coefficient that is not there
is one.
-/

namespace Ava6.Strings.Entailment

open Ava6.Library.MonomialSum

-- Sums of monomials

abbrev MonomialSum := Library.MonomialSum Node

def getMonomial : Node → Option Node × Option Int
  | .const (.int c) => (none, some c)
  | .apply .mult (.cons (.const (.int c)) (.cons v .nil)) => (some v, some c)
  | n => (some n, none)

def summands : Node → List Node
  | .apply .add children => children.toList
  | n => [n]

variable (id : Node → Nat)

/-- Nothing where two monomials have the same variable. -/
def getMonomialSum (n : Node) : Option MonomialSum := ofMonomials id ((summands n).map getMonomial)

def isZero : Node → Bool
  | .const (.int c) => c == 0
  | _ => false

/-- The sum that an equality says is zero. -/
def getMonomialSumLit (lhs rhs : Node) : Option MonomialSum := do
  let msum ← getMonomialSum id lhs
  if isZero rhs then return msum
  let msum2 ← getMonomialSum id rhs
  return msum2.foldl (subtractMonomial id) msum

def mkCoeffTerm (c : Option Int) (t : Node) : Node :=
  match c with
  | none => t
  | some c => mkNode .mult [mkConstInt c, t]

def monomialNode (m : Option Node × Option Int) : Node :=
  match m.1 with
  | none => mkConstInt (m.2.getD 1)
  | some v => mkCoeffTerm m.2 v

def sumNode : List Node → Node
  | [] => mkConstInt 0
  | [child] => child
  | children => mkNode .add children

/-- What `v` equals where the sum is zero, and the coefficient that is left on `v` if it is not one. -/
def isolate (v : Node) (msum : MonomialSum) : Option (Option Int × Node) :=
  match msum.lookup (some v) with
  | none => none
  | some c =>
      let r := c.getD 1
      if r = 0 then none
      else
        let val := sumNode ((msum.filter fun m => m.1 ≠ some v).map monomialNode)
        let veqc := if r ≠ 1 ∧ r ≠ -1 then some |r| else none
        some (veqc, if 0 < r then mkNode .mult [mkConstInt (-1), val] else val)

/-- A side that is `v` is looked at first. -/
def solveEqualityFor (lhs rhs v : Node) : Option Node :=
  if lhs = v then some rhs
  else if rhs = v then some lhs
  else do
    let msum ← getMonomialSumLit id lhs rhs
    match isolate v msum with
    | some (none, val) => some val
    | _ => none

-- Values of sums

variable (I : Interpretation)

/-- The integer that a node stands for. -/
def intValue (n : Node) : Int := (n.eval I).toInt

variable {id I}

theorem intValue_mult (children : List Node)
    : intValue I (mkNode .mult children) = (children.map (intValue I)).prod := by
  rw [intValue, eval_mkNode, Kind.eval, Value.toInt, List.map_map]
  rfl

theorem intValue_add (children : List Node)
    : intValue I (mkNode .add children) = (children.map (intValue I)).sum := by
  rw [intValue, eval_mkNode, Kind.eval, Value.toInt, List.map_map]
  rfl

@[simp]
theorem intValue_mkConstInt (n : Int) : intValue I (mkConstInt n) = n := by
  rw [intValue, mkConstInt, eval_const]
  rfl

theorem monomialValue_getMonomial (n : Node) : monomialValue (intValue I) (getMonomial n) = intValue I n := by
  unfold getMonomial
  split
  · simp [monomialValue, intValue, Value.toInt]
  · simp [monomialValue, intValue, Node.eval, Nodes.eval, Kind.eval, Value.toInt]
  · simp [monomialValue]

theorem sum_summands (n : Node) : ((summands n).map (intValue I)).sum = intValue I n := by
  unfold summands
  split
  · next children =>
      rw [intValue, Node.eval, eval_nodes, Kind.eval, Value.toInt, List.map_map]
      rfl
  · rw [List.map_singleton, List.sum_singleton]

variable {n : Node} {msum : MonomialSum}

theorem sumValue_getMonomialSum (found : getMonomialSum id n = some msum)
    : sumValue (intValue I) msum = intValue I n := by
  rw [sumValue_ofMonomials found, sumValue, List.map_map, ← sum_summands]
  exact congrArg List.sum (List.map_congr_left fun n _ => monomialValue_getMonomial n)

theorem intValue_monomialNode (m : Option Node × Option Int) : intValue I (monomialNode m) = monomialValue (intValue I) m := by
  obtain ⟨key, c⟩ := m
  cases key with
  | none => simp [monomialNode, monomialValue]
  | some v =>
      cases c with
      | none => simp [monomialNode, mkCoeffTerm, monomialValue]
      | some c => simp [monomialNode, mkCoeffTerm, monomialValue, intValue_mult]

theorem intValue_sumNode (children : List Node) : intValue I (sumNode children) = (children.map (intValue I)).sum := by
  match children with
  | [] => exact intValue_mkConstInt 0
  | [child] => exact (add_zero _).symm
  | first :: second :: rest => exact intValue_add _

variable {lhs rhs : Node}

theorem getMonomialSumLit_eq_some (found : getMonomialSumLit id lhs rhs = some msum)
    : ∃ first, getMonomialSum id lhs = some first
      ∧ (isZero rhs = true ∧ msum = first
        ∨ ∃ second, getMonomialSum id rhs = some second ∧ msum = second.foldl (subtractMonomial id) first) := by
  rw [getMonomialSumLit, Option.bind_eq_bind, Option.bind_eq_some_iff] at found
  obtain ⟨first, isFirst, found⟩ := found
  refine ⟨first, isFirst, ?_⟩
  split at found
  · next rhsZero => exact Or.inl ⟨rhsZero, (Option.some_inj.mp found).symm⟩
  · rw [Option.bind_eq_some_iff] at found
    obtain ⟨second, isSecond, found⟩ := found
    exact Or.inr ⟨second, isSecond, (Option.some_inj.mp found).symm⟩

theorem intValue_of_isZero (zero : isZero n = true) : intValue I n = 0 := by
  unfold isZero at zero
  split at zero
  · rw [beq_iff_eq] at zero
    rw [zero]
    exact intValue_mkConstInt 0
  · cases zero

theorem sumValue_getMonomialSumLit (found : getMonomialSumLit id lhs rhs = some msum)
    : sumValue (intValue I) msum = intValue I lhs - intValue I rhs := by
  obtain ⟨first, isFirst, ⟨rhsZero, rfl⟩ | ⟨second, isSecond, rfl⟩⟩ := getMonomialSumLit_eq_some found
  · rw [sumValue_getMonomialSum isFirst, intValue_of_isZero rhsZero, sub_zero]
  · rw [sumValue_subtractAll, sumValue_getMonomialSum isFirst, sumValue_getMonomialSum isSecond]

theorem nodup_getMonomialSumLit (found : getMonomialSumLit id lhs rhs = some msum)
    : (msum.map Prod.fst).Nodup := by
  obtain ⟨first, isFirst, ⟨_, rfl⟩ | ⟨second, _, rfl⟩⟩ := getMonomialSumLit_eq_some found
  · exact nodup_ofMonomials isFirst
  · exact nodup_subtractAll (nodup_ofMonomials isFirst) second

variable {v : Node}

-- Solutions

/-- The variables of a sum are integers. -/
def IsIntegerSum (msum : MonomialSum) : Prop := ∀ v, some v ∈ msum.map Prod.fst → v.IsInteger

theorem isInteger_children {kind : Kind} {children : Nodes} (isInteger : (Node.apply kind children).IsInteger)
    (isKind : kind = .add ∨ kind = .mult)
    : ∀ child ∈ children.toList, child.IsInteger := by
  rw [Node.IsInteger, Node.getType, Option.bind_eq_some_iff] at isInteger
  obtain ⟨types, isTypes, isType⟩ := isInteger
  have allInt : types.all (· == .int) = true := by
    rcases isKind with rfl | rfl
    · rw [Kind.computeType] at isType
      split at isType
      · next both => exact both.2
      · cases isType
    · rw [Kind.computeType] at isType
      split at isType
      · next both => exact both.2
      · cases isType
  intro child isChild
  have isMem : child.getType ∈ types.map some := getTypes_eq_some isTypes ▸ List.mem_map_of_mem isChild
  obtain ⟨type, isMem, isType⟩ := List.mem_map.mp isMem
  rw [Node.IsInteger, ← isType, eq_of_beq (List.all_eq_true.mp allInt type isMem)]

theorem isInteger_summands (isInteger : n.IsInteger) : ∀ m ∈ summands n, m.IsInteger := by
  unfold summands
  split
  · exact isInteger_children isInteger (Or.inl rfl)
  · exact fun m isMem => List.mem_singleton.mp isMem ▸ isInteger

theorem isInteger_getMonomial (isInteger : n.IsInteger) (isKey : (getMonomial n).1 = some v) : v.IsInteger := by
  unfold getMonomial at isKey
  split at isKey
  · cases isKey
  · cases isKey
    exact isInteger_children isInteger (Or.inr rfl) v (by simp [Nodes.toList])
  · cases isKey
    exact isInteger

theorem isIntegerSum_getMonomialSum (isInteger : n.IsInteger)
    (found : getMonomialSum id n = some msum)
    : IsIntegerSum msum := by
  intro v isMem
  rw [((ofMonomials_perm found).map Prod.fst).mem_iff, List.map_map, List.mem_map] at isMem
  obtain ⟨m, isMem, isKey⟩ := isMem
  exact isInteger_getMonomial (isInteger_summands isInteger m isMem) isKey

theorem isIntegerSum_subtractMonomial (isIntegers : IsIntegerSum msum)
    {m : Option Node × Option Int} (isInteger : ∀ v, m.1 = some v → v.IsInteger)
    : IsIntegerSum (subtractMonomial id msum m) := by
  intro v isMem
  rw [subtractMonomial] at isMem
  split at isMem
  · rw [keys_setCoefficient] at isMem
    exact isIntegers v isMem
  · rw [((List.perm_orderedInsert _ _ _).map Prod.fst).mem_iff, List.map_cons, List.mem_cons] at isMem
    exact isMem.elim (fun isKey => isInteger v isKey.symm) (isIntegers v)

theorem isIntegerSum_subtractAll {second : MonomialSum} (isIntegers : IsIntegerSum msum)
    (isIntegers' : IsIntegerSum second)
    : IsIntegerSum (second.foldl (subtractMonomial id) msum) := by
  induction second generalizing msum with
  | nil => exact isIntegers
  | cons m rest ih =>
      have isInteger : ∀ v, m.1 = some v → v.IsInteger :=
        fun v isKey => isIntegers' v (isKey ▸ List.mem_map_of_mem List.mem_cons_self)
      exact ih (isIntegerSum_subtractMonomial isIntegers isInteger)
        fun v isMem => isIntegers' v (List.mem_cons_of_mem _ isMem)

theorem isIntegerSum_getMonomialSumLit (isInteger : lhs.IsInteger)
    (isInteger' : rhs.IsInteger) (found : getMonomialSumLit id lhs rhs = some msum)
    : IsIntegerSum msum := by
  obtain ⟨first, isFirst, ⟨_, rfl⟩ | ⟨second, isSecond, rfl⟩⟩ := getMonomialSumLit_eq_some found
  · exact isIntegerSum_getMonomialSum isInteger isFirst
  · exact isIntegerSum_subtractAll (isIntegerSum_getMonomialSum isInteger isFirst)
      (isIntegerSum_getMonomialSum isInteger' isSecond)

variable {children : List Node}

theorem getTypes_of_isInteger (areIntegers : ∀ child ∈ children, child.IsInteger)
    : (Nodes.ofList children).getTypes = some (List.replicate children.length .int) := by
  induction children with
  | nil => rfl
  | cons child rest ih =>
      have isInteger : child.getType = some .int := areIntegers child List.mem_cons_self
      rw [Nodes.ofList, Nodes.getTypes, isInteger, ih fun child isChild => areIntegers child (List.mem_cons_of_mem _ isChild)]
      rfl

theorem isInteger_mkNode {kind : Kind} (isKind : kind = .add ∨ kind = .mult)
    (isLong : 2 ≤ children.length) (areIntegers : ∀ child ∈ children, child.IsInteger)
    : (mkNode kind children).IsInteger := by
  rw [Node.IsInteger, mkNode, Node.getType, getTypes_of_isInteger areIntegers]
  have isType : 2 ≤ (List.replicate children.length TypeNode.int).length
      ∧ (List.replicate children.length TypeNode.int).all (· == .int) = true := by
    refine ⟨by rw [List.length_replicate]; exact isLong, ?_⟩
    simp
  rcases isKind with rfl | rfl <;> exact if_pos isType

theorem isInteger_monomialNode {m : Option Node × Option Int} (isInteger : ∀ v, m.1 = some v → v.IsInteger)
    : (monomialNode m).IsInteger := by
  obtain ⟨key, c⟩ := m
  cases key with
  | none => rfl
  | some v =>
      cases c with
      | none => exact isInteger v rfl
      | some c =>
          refine isInteger_mkNode (Or.inr rfl) (Nat.le_refl 2) ?_
          exact List.forall_mem_cons.mpr ⟨rfl, List.forall_mem_singleton.mpr (isInteger v rfl)⟩

theorem isInteger_sumNode (areIntegers : ∀ child ∈ children, child.IsInteger)
    : (sumNode children).IsInteger := by
  match children with
  | [] => rfl
  | [child] => exact areIntegers child (List.mem_singleton_self child)
  | first :: second :: rest => exact isInteger_mkNode (Or.inl rfl) (Nat.le_add_left 2 _) areIntegers

variable {val : Node}

theorem isolate_eq_some (found : isolate v msum = some (none, val))
    : ∃ c, msum.lookup (some v) = some c ∧ (c.getD 1 = 1 ∨ c.getD 1 = -1)
      ∧ val = (let others := sumNode ((msum.filter fun m => m.1 ≠ some v).map monomialNode)
          if 0 < c.getD 1 then mkNode .mult [mkConstInt (-1), others] else others) := by
  rw [isolate] at found
  split at found
  · cases found
  · next c isCoefficient =>
      refine ⟨c, isCoefficient, ?_⟩
      simp only at found
      split at found
      · cases found
      · rw [Option.some_inj, Prod.mk.injEq] at found
        refine ⟨?_, found.2.symm⟩
        split at found
        · cases found.1
        · omega

theorem isInteger_others (isIntegers : IsIntegerSum msum) (v : Node)
    : (sumNode ((msum.filter fun m => m.1 ≠ some v).map monomialNode)).IsInteger := by
  refine isInteger_sumNode fun child isChild => ?_
  obtain ⟨m, isMem, rfl⟩ := List.mem_map.mp isChild
  exact isInteger_monomialNode fun u isKey =>
    isIntegers u (List.mem_map.mpr ⟨m, List.mem_of_mem_filter isMem, isKey⟩)

theorem isInteger_isolate (isIntegers : IsIntegerSum msum)
    (found : isolate v msum = some (none, val))
    : val.IsInteger := by
  obtain ⟨c, _, _, rfl⟩ := isolate_eq_some found
  simp only
  split
  · refine isInteger_mkNode (Or.inr rfl) (Nat.le_refl 2) ?_
    exact List.forall_mem_cons.mpr ⟨rfl, List.forall_mem_singleton.mpr (isInteger_others isIntegers v)⟩
  · exact isInteger_others isIntegers v

/-- What is isolated is the value of the variable, with no coefficient left on it. -/
theorem intValue_isolate (nodup : (msum.map Prod.fst).Nodup)
    (zero : sumValue (intValue I) msum = 0) (found : isolate v msum = some (none, val))
    : intValue I v = intValue I val := by
  obtain ⟨c, isCoefficient, isUnit, rfl⟩ := isolate_eq_some found
  rw [sumValue_split nodup isCoefficient] at zero
  generalize (msum.filter fun m => m.1 ≠ some v) = others at zero
  have sumEq : intValue I (sumNode (others.map monomialNode)) = sumValue (intValue I) others := by
    rw [intValue_sumNode, List.map_map, sumValue]
    exact congrArg List.sum (List.map_congr_left fun m _ => intValue_monomialNode m)
  simp only
  rcases isUnit with isOne | isMinusOne
  · rw [isOne, one_mul] at zero
    rw [if_pos (by omega), intValue_mult]
    simp only [List.map_cons, List.map_nil, List.prod_cons, List.prod_nil, intValue_mkConstInt, sumEq]
    omega
  · rw [isMinusOne] at zero
    rw [if_neg (by omega), sumEq]
    omega

variable (id) in
theorem isInteger_solveEqualityFor {solution : Node} (isInteger : lhs.IsInteger) (isInteger' : rhs.IsInteger)
    (found : solveEqualityFor id lhs rhs v = some solution)
    : solution.IsInteger := by
  rw [solveEqualityFor] at found
  split at found
  · cases found
    exact isInteger'
  · split at found
    · cases found
      exact isInteger
    · rw [Option.bind_eq_bind, Option.bind_eq_some_iff] at found
      obtain ⟨msum, isSum, found⟩ := found
      split at found
      · next isolated =>
          cases found
          exact isInteger_isolate (isIntegerSum_getMonomialSumLit isInteger isInteger' isSum) isolated
      · cases found

variable (id) in
/-- A solution has the value of what was solved for, wherever the equality holds. -/
theorem intValue_solveEqualityFor {solution : Node} (same : intValue I lhs = intValue I rhs)
    (found : solveEqualityFor id lhs rhs v = some solution)
    : intValue I v = intValue I solution := by
  rw [solveEqualityFor] at found
  split at found
  · next isLeft =>
      cases found
      exact isLeft ▸ same
  · split at found
    · next isRight =>
        cases found
        exact isRight ▸ same.symm
    · rw [Option.bind_eq_bind, Option.bind_eq_some_iff] at found
      obtain ⟨msum, isSum, found⟩ := found
      have zero : sumValue (intValue I) msum = 0 := by rw [sumValue_getMonomialSumLit isSum, same, sub_self]
      split at found
      · next isolated =>
          cases found
          exact intValue_isolate (nodup_getMonomialSumLit isSum) zero isolated
      · cases found

end Ava6.Strings.Entailment
