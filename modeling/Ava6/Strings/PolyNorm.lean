import Mathlib.Algebra.BigOperators.Group.List.Basic
import Mathlib.Algebra.BigOperators.Ring.List
import Mathlib.Data.List.Sort
import Mathlib.Tactic.LinearCombination
import Ava6.Library.MonomialSum
import Ava6.Strings.Term

/-! Integer terms as polynomials over the terms that are not looked into, and the sums of monomials that the polynomials
are read back as. A term has an identifier, by which maps and children are sorted.
-/

namespace Ava6.Strings.PolyNorm

open Ava6.Library.MonomialSum

variable (id : IntTerm → Nat)

def sortById (terms : List IntTerm) : List IntTerm := terms.insertionSort (fun a b => id a ≤ id b)

/-- `d_polyNorm`: the coefficients of lists of variables, which is empty for the constant. -/
abbrev Monomials := List (List IntTerm × Int)

def multMonoVar (m1 m2 : List IntTerm) : List IntTerm := sortById id (m1 ++ m2)

/-- Adds to the coefficient of a monomial, which is erased where it cancels. -/
def insertMonomial (x : List IntTerm) (c : Int) : Monomials → Monomials
  | [] => [(x, c)]
  | m :: rest =>
      if m.1 = x then if m.2 + c = 0 then rest else (x, m.2 + c) :: rest
      else m :: insertMonomial x c rest

def addMonomial (p : Monomials) (x : List IntTerm) (c : Int) (isNeg : Bool) : Monomials :=
  if c = 0 then p else insertMonomial x (if isNeg then -c else c) p

def multiplyMonomial (p : Monomials) (x : List IntTerm) (c : Int) : Monomials :=
  if x = [] then p.map (fun m => (m.1, m.2 * c)) else p.map (fun m => (multMonoVar id m.1 x, m.2 * c))

def add (p q : Monomials) : Monomials := q.foldl (fun r m => addMonomial r m.1 m.2 false) p

def subtract (p q : Monomials) : Monomials := q.foldl (fun r m => addMonomial r m.1 m.2 true) p

def multiply (p q : Monomials) : Monomials :=
  match q with
  | [m] => multiplyMonomial id p m.1 m.2
  | entries => entries.foldl (fun r m => add r (multiplyMonomial id p m.1 m.2)) []

mutual
def mkPolyNorm : IntTerm → Monomials
  | .const n => addMonomial [] [] n false
  | .add children => addAll [] children
  | .mult children | .nonlinearMult children => product children
  | .sub a b => subtract (add [] (mkPolyNorm a)) (mkPolyNorm b)
  | .var name => addMonomial [] [.var name] 1 false
  | .length s => addMonomial [] [.length s] 1 false
  | .indexof s t start => addMonomial [] [.indexof s t start] 1 false
  | .toInt s => addMonomial [] [.toInt s] 1 false

def addAll (ret : Monomials) : IntTerms → Monomials
  | .nil => ret
  | .cons a rest => addAll (add ret (mkPolyNorm a)) rest

/-- There is a first child; the other children are multiplied with it. -/
def product : IntTerms → Monomials
  | .nil => addMonomial [] [] 1 false
  | .cons a rest => multiplyAll (add [] (mkPolyNorm a)) rest

def multiplyAll (ret : Monomials) : IntTerms → Monomials
  | .nil => ret
  | .cons a rest => multiplyAll (multiply id ret (mkPolyNorm a)) rest
end

/-- The product of a coefficient and variables. -/
def monomialNode (m : List IntTerm × Int) : IntTerm :=
  match m.1 with
  | [] => .const m.2
  | [t] => if m.2 = 1 then t else .mult (.ofList [.const m.2, t])
  | vars => if m.2 = 1 then .mult (.ofList vars) else .mult (.ofList [.const m.2, .mult (.ofList vars)])

def sumNode : List IntTerm → IntTerm
  | [] => .const 0
  | [t] => t
  | sum => .add (.ofList sum)

def toNode (p : Monomials) : IntTerm := sumNode (sortById id (p.map monomialNode))

def getPolyNorm (a : IntTerm) : IntTerm := toNode id (mkPolyNorm id a)

variable (A : Assignment)

def valueOf (terms : List IntTerm) : Int := (terms.map (IntTerm.eval A)).prod

def value (p : Monomials) : Int := (p.map (fun m => m.2 * valueOf A m.1)).sum

@[simp]
theorem value_nil : value A [] = 0 := rfl

@[simp]
theorem value_cons (m : List IntTerm × Int) (p : Monomials) : value A (m :: p) = m.2 * valueOf A m.1 + value A p := rfl

variable {id A}

theorem product_eq (children : IntTerms) : children.product A = valueOf A children.toList := by
  match children with
  | .nil => rfl
  | .cons head tail =>
      rw [IntTerms.product, IntTerms.toList, product_eq tail, valueOf, valueOf, List.map_cons, List.prod_cons]

theorem sortById_perm (terms : List IntTerm) : (sortById id terms).Perm terms := List.perm_insertionSort _ terms

theorem valueOf_multMonoVar (m1 m2 : List IntTerm) : valueOf A (multMonoVar id m1 m2) = valueOf A m1 * valueOf A m2 := by
  rw [multMonoVar, valueOf, ((sortById_perm (m1 ++ m2)).map _).prod_eq, List.map_append, List.prod_append]
  rfl

theorem value_insertMonomial (x : List IntTerm) (c : Int) (p : Monomials)
    : value A (insertMonomial x c p) = value A p + c * valueOf A x := by
  induction p with
  | nil =>
      rw [insertMonomial, value_cons, value_nil]
      ring
  | cons m rest ih =>
      rw [insertMonomial]
      split
      · next same =>
          split
          · next cancels =>
              rw [value_cons, ← same]
              linear_combination -(valueOf A m.1) * cancels
          · rw [value_cons, value_cons, ← same]
            ring
      · rw [value_cons, value_cons, ih]
        ring

theorem value_addMonomial (p : Monomials) (x : List IntTerm) (c : Int) (isNeg : Bool)
    : value A (addMonomial p x c isNeg) = value A p + (if isNeg then -c else c) * valueOf A x := by
  rw [addMonomial]
  split
  · next isZero => cases isNeg <;> simp [isZero]
  · exact value_insertMonomial x _ p

theorem value_multiplyMonomial (p : Monomials) (x : List IntTerm) (c : Int)
    : value A (multiplyMonomial id p x c) = value A p * (c * valueOf A x) := by
  have scaled (f : List IntTerm → List IntTerm) (d : Int) (isFactor : ∀ m, valueOf A (f m) * c = valueOf A m * d)
      : value A (p.map (fun m => (f m.1, m.2 * c))) = value A p * d := by
    induction p with
    | nil => exact (zero_mul d).symm
    | cons m rest ih =>
        rw [List.map_cons, value_cons, value_cons, ih]
        linear_combination m.2 * isFactor m.1
  rw [multiplyMonomial]
  split
  · next isNull =>
      refine scaled (fun m => m) _ (fun m => ?_)
      have isOne : valueOf A [] = 1 := rfl
      rw [isNull, isOne, mul_one]
  · refine scaled (fun m => multMonoVar id m x) _ (fun m => ?_)
    rw [valueOf_multMonoVar]
    ring

theorem value_add (p q : Monomials) : value A (add p q) = value A p + value A q := by
  rw [add]
  induction q generalizing p with
  | nil => exact (add_zero _).symm
  | cons m rest ih =>
      rw [List.foldl_cons, ih, value_addMonomial, value_cons]
      simp only [Bool.false_eq_true, if_false]
      ring

theorem value_subtract (p q : Monomials) : value A (subtract p q) = value A p - value A q := by
  rw [subtract]
  induction q generalizing p with
  | nil => exact (sub_zero _).symm
  | cons m rest ih =>
      rw [List.foldl_cons, ih, value_addMonomial, value_cons, if_pos rfl]
      ring

theorem value_multiply (p q : Monomials) : value A (multiply id p q) = value A p * value A q := by
  have distributed (entries r : Monomials)
      : value A (entries.foldl (fun r m => add r (multiplyMonomial id p m.1 m.2)) r)
        = value A r + value A p * value A entries := by
    induction entries generalizing r with
    | nil => rw [List.foldl_nil, value_nil, mul_zero, add_zero]
    | cons m rest ih =>
        rw [List.foldl_cons, ih, value_add, value_multiplyMonomial, value_cons]
        ring
  unfold multiply
  split
  · rw [value_multiplyMonomial, value_cons, value_nil, add_zero]
  · rw [distributed, value_nil, zero_add]

theorem value_leaf (a : IntTerm) : value A (addMonomial [] [a] 1 false) = a.eval A := by
  rw [value_addMonomial]
  simp [valueOf]

mutual
theorem value_mkPolyNorm (a : IntTerm) : value A (mkPolyNorm id a) = a.eval A := by
  match a with
  | .const n =>
      rw [mkPolyNorm, value_addMonomial, IntTerm.eval]
      simp [valueOf]
  | .add children => rw [mkPolyNorm, value_addAll, IntTerm.eval, value_nil, zero_add]
  | .mult children => rw [mkPolyNorm, value_product, IntTerm.eval]
  | .nonlinearMult children => rw [mkPolyNorm, value_product, IntTerm.eval]
  | .sub a b =>
      rw [mkPolyNorm, value_subtract, value_add, value_mkPolyNorm a, value_mkPolyNorm b, IntTerm.eval, value_nil, zero_add]
  | .var _ | .length _ | .indexof _ _ _ | .toInt _ =>
      rw [mkPolyNorm]
      exact value_leaf _

theorem value_addAll (ret : Monomials) (children : IntTerms)
    : value A (addAll id ret children) = value A ret + children.sum A := by
  match children with
  | .nil => rw [addAll, IntTerms.sum, add_zero]
  | .cons a rest => rw [addAll, value_addAll _ rest, value_add, value_mkPolyNorm a, IntTerms.sum, add_assoc]

theorem value_product (children : IntTerms) : value A (product id children) = children.product A := by
  match children with
  | .nil =>
      rw [product, value_addMonomial, IntTerms.product]
      simp [valueOf]
  | .cons a rest =>
      rw [product, value_multiplyAll _ rest, value_add, value_mkPolyNorm a, value_nil, zero_add, IntTerms.product]

theorem value_multiplyAll (ret : Monomials) (children : IntTerms)
    : value A (multiplyAll id ret children) = value A ret * children.product A := by
  match children with
  | .nil => rw [multiplyAll, IntTerms.product, mul_one]
  | .cons a rest =>
      rw [multiplyAll, value_multiplyAll _ rest, value_multiply, value_mkPolyNorm a, IntTerms.product, mul_assoc]
end

theorem eval_mult (terms : List IntTerm) : (IntTerm.mult (.ofList terms)).eval A = valueOf A terms := by
  rw [IntTerm.eval, product_eq, IntTerms.toList_ofList]

theorem eval_add (terms : List IntTerm) : (IntTerm.add (.ofList terms)).eval A = (terms.map (IntTerm.eval A)).sum := by
  rw [IntTerm.eval, IntTerms.sum_eq, IntTerms.toList_ofList]

theorem eval_monomialNode (m : List IntTerm × Int) : (monomialNode m).eval A = m.2 * valueOf A m.1 := by
  rw [monomialNode]
  split
  · next isNull =>
      rw [isNull, IntTerm.eval]
      exact (mul_one m.2).symm
  · next t isSingle =>
      rw [isSingle]
      split
      · next isOne => rw [isOne, one_mul]; exact (mul_one _).symm
      · rw [eval_mult]
        simp [valueOf, IntTerm.eval]
  · split
    · next isOne => rw [isOne, one_mul, eval_mult]
    · rw [eval_mult]
      simp [valueOf, IntTerm.eval, product_eq, IntTerms.toList_ofList]

theorem eval_sumNode (sum : List IntTerm) : (sumNode sum).eval A = (sum.map (IntTerm.eval A)).sum := by
  unfold sumNode
  split
  · rw [IntTerm.eval, List.map_nil, List.sum_nil]
  · rw [List.map_singleton, List.sum_singleton]
  · exact eval_add _

theorem eval_toNode (p : Monomials) : (toNode id p).eval A = value A p := by
  rw [toNode, eval_sumNode, ((sortById_perm _).map _).sum_eq, List.map_map, value]
  congr 1
  exact List.map_congr_left (fun m _ => eval_monomialNode m)

/-- The normal form has the same value. -/
theorem eval_getPolyNorm (a : IntTerm) : (getPolyNorm id a).eval A = a.eval A := by
  rw [getPolyNorm, eval_toNode, value_mkPolyNorm]

/-- A map from variables to constants; null is the variable of the constant, and also the constant one. -/
abbrev MonomialSum := Library.MonomialSum IntTerm

/-- The variable and the constant of a monomial. -/
def getMonomial : IntTerm → Option IntTerm × Option Int
  | .const n => (none, some n)
  | .mult (.cons (.const c) (.cons v .nil)) => (some v, some c)
  | a => (some a, none)

def summands : IntTerm → List IntTerm
  | .add children => children.toList
  | a => [a]

/-- Nothing where two monomials have the same variable. -/
def getMonomialSum (id : IntTerm → Nat) (a : IntTerm) : Option MonomialSum :=
  ofMonomials id ((summands a).map getMonomial)

def mkCoeffTerm (c : Option Int) (t : IntTerm) : IntTerm :=
  match c with
  | none => t
  | some c => .mult (.ofList [.const c, t])

theorem monomialValue_getMonomial (a : IntTerm) : monomialValue (IntTerm.eval A) (getMonomial a) = a.eval A := by
  unfold getMonomial
  split
  · simp [monomialValue, IntTerm.eval]
  · simp [monomialValue, IntTerm.eval, IntTerms.product]
  · simp [monomialValue]

theorem sum_summands (a : IntTerm) : ((summands a).map (IntTerm.eval A)).sum = a.eval A := by
  unfold summands
  split
  · rw [IntTerm.eval, IntTerms.sum_eq]
  · rw [List.map_singleton, List.sum_singleton]

theorem eval_mkCoeffTerm (c : Option Int) (t : IntTerm) : (mkCoeffTerm c t).eval A = c.getD 1 * t.eval A := by
  cases c with
  | none => exact (one_mul _).symm
  | some c => simp [mkCoeffTerm, IntTerms.ofList, IntTerm.eval, IntTerms.product]

/-- The monomials add up to the term. -/
theorem sum_getMonomialSum {a : IntTerm} {msum : MonomialSum} (found : getMonomialSum id a = some msum)
    : sumValue (IntTerm.eval A) msum = a.eval A := by
  rw [sumValue_ofMonomials found, sumValue, List.map_map, ← sum_summands]
  congr 1
  exact List.map_congr_left (fun a _ => monomialValue_getMonomial a)

end Ava6.Strings.PolyNorm
