import Mathlib.Algebra.Algebra.Rat
import Mathlib.Algebra.Ring.Subring.Basic
import Mathlib.Tactic.Ring
import Ava6.Arith.Poly.PolyNorm

/-! The value of a polynomial at a point of a commutative algebra over the rational numbers, and what the
operations do to it. With numbers as values it is the value under an interpretation, with the variables
themselves it is the polynomial.
-/

namespace Ava6.Arith.Poly

open Library

namespace PolyNorm

section Combine

variable {R : Type*} [CommRing R]

/-- `combine` on the values. -/
def combineAt (k : Kind) : Nat → R → List R → R
  | _, ret, [] => ret
  | i, ret, v :: vs =>
      combineAt k (i + 1)
        (if ((k = .sub ∨ k = .bitvectorSub) ∧ i = 1) ∨ k = .neg ∨ k = .bitvectorNeg then ret - v
        else if i > 0 ∧ (k = .mult ∨ k = .nonlinearMult ∨ k = .bitvectorMult) then ret * v
        else ret + v)
        vs

attribute [local simp] combineAt

theorem combineAt_sum {k : Kind} (isSum : k = .add ∨ k = .toReal ∨ k = .bitvectorAdd) (i : Nat) (ret : R)
    (vs : List R)
    : combineAt k i ret vs = ret + vs.sum := by
  induction vs generalizing i ret with
  | nil => simp [combineAt]
  | cons v vs ih =>
      rw [combineAt, ih, List.sum_cons]
      rcases isSum with rfl | rfl | rfl <;> simp [add_assoc]

theorem combineAt_prod {k : Kind} (isProduct : k = .mult ∨ k = .nonlinearMult ∨ k = .bitvectorMult)
    (i : Nat) (ret : R) (vs : List R)
    : combineAt k (i + 1) ret vs = ret * vs.prod := by
  induction vs generalizing i ret with
  | nil => simp [combineAt]
  | cons v vs ih =>
      rw [combineAt, ih, List.prod_cons]
      rcases isProduct with rfl | rfl | rfl <;> simp [mul_assoc]

theorem combineAt_mult {k : Kind} (isProduct : k = .mult ∨ k = .nonlinearMult ∨ k = .bitvectorMult)
    (v : R) (vs : List R)
    : combineAt k 0 0 (v :: vs) = (v :: vs).prod := by
  rw [combineAt, combineAt_prod isProduct, List.prod_cons]
  rcases isProduct with rfl | rfl | rfl <;> simp

theorem combineAt_sub {k : Kind} (isDifference : k = .sub ∨ k = .bitvectorSub) (v w : R)
    : combineAt k 0 0 [v, w] = v - w := by
  rcases isDifference with rfl | rfl <;> simp [combineAt]

theorem combineAt_neg {k : Kind} (isNegation : k = .neg ∨ k = .bitvectorNeg) (v : R)
    : combineAt k 0 0 [v] = -v := by
  rcases isNegation with rfl | rfl <;> simp [combineAt]

/-- Homomorphisms of rings commute with it. -/
theorem combineAt_map {S : Type*} [CommRing S] (f : R →+* S) (k : Kind) (i : Nat) (ret : R) (vs : List R)
    : f (combineAt k i ret vs) = combineAt k i (f ret) (vs.map f) := by
  induction vs generalizing i ret with
  | nil => rfl
  | cons v vs ih =>
      rw [combineAt, ih, List.map_cons, combineAt]
      congr 1
      split
      · exact map_sub f ret v
      · split
        · exact map_mul f ret v
        · exact map_add f ret v

theorem combineAt_mem (S : Subring R) (k : Kind) (i : Nat) {ret : R} (inside : ret ∈ S) {vs : List R} (all : ∀ v ∈ vs, v ∈ S)
    : combineAt k i ret vs ∈ S := by
  induction vs generalizing i ret with
  | nil => exact inside
  | cons v vs ih =>
      obtain ⟨ofFirst, ofRest⟩ := List.forall_mem_cons.mp all
      refine ih (i + 1) ?_ ofRest
      split
      · exact S.sub_mem inside ofFirst
      · split
        · exact S.mul_mem inside ofFirst
        · exact S.add_mem inside ofFirst

end Combine

end PolyNorm

variable [LinearOrder Node] {R : Type*} [CommRing R] (point : Node → R)

/-- The product of the variables. -/
def MonoVar.evalAt (x : MonoVar) : R := (x.vars.map point).prod

@[simp]
theorem MonoVar.evalAt_null : MonoVar.null.evalAt point = 1 := rfl

@[simp]
theorem MonoVar.evalAt_single (n : Node) : (MonoVar.single n).evalAt point = point n := by
  simp [MonoVar.evalAt, MonoVar.single]

@[simp]
theorem MonoVar.evalAt_multMonoVar (m1 m2 : MonoVar)
    : (MonoVar.multMonoVar m1 m2).evalAt point = m1.evalAt point * m2.evalAt point := by
  rw [MonoVar.evalAt, ((MonoVar.multMonoVar_perm m1 m2).map _).prod_eq, List.map_append, List.prod_append]
  rfl

theorem MonoVar.evalAt_of_vars_nil {x : MonoVar} (isNull : x.vars = []) : x.evalAt point = 1 := by
  rw [MonoVar.evalAt, isNull, List.map_nil, List.prod_nil]

variable [LinearOrder MonoVar] [Algebra ℚ R]

namespace PolyNorm

variable {p q : PolyNorm} {x : MonoVar} {c : Rat}

/-- The value of a monomial. -/
def monomialAt (x : MonoVar) (c : Rat) : R := algebraMap ℚ R c * x.evalAt point

/-- The sum of the monomials. -/
def evalAt (p : PolyNorm) : R := p.monomials.total (monomialAt point)

@[simp]
theorem evalAt_zero : zero.evalAt point = 0 := rfl

theorem evalAt_assign (p : PolyNorm) (x : MonoVar) (c : Rat)
    : (p.assign x c).evalAt point = monomialAt point x c + (p.monomials.erase x).total (monomialAt point) := by
  rw [assign]
  split
  · exact OrderedMap.total_set ..
  · next isZero =>
      rw [not_not.mp isZero, monomialAt, map_zero, zero_mul, zero_add]
      rfl

theorem evalAt_assign_new (missing : p.monomials.find? x = none) (c : Rat)
    : (p.assign x c).evalAt point = p.evalAt point + monomialAt point x c := by
  rw [evalAt_assign, OrderedMap.erase_of_absent missing, add_comm]
  rfl

theorem evalAt_eq_erase {old : Rat} (found : p.monomials.find? x = some old)
    : p.evalAt point = monomialAt point x old + (p.monomials.erase x).total (monomialAt point) :=
  OrderedMap.total_erase found

theorem evalAt_addMonomial (p : PolyNorm) (x : MonoVar) (c : Rat) (isNeg : Bool)
    : (p.addMonomial x c isNeg).evalAt point = p.evalAt point + monomialAt point x (if isNeg then -c else c) := by
  rw [addMonomial]
  split
  · next isZero => simp [isZero, monomialAt]
  · split
    · next missing => rw [evalAt_assign_new point missing]
    · next old found =>
        rw [evalAt_assign, evalAt_eq_erase point found, monomialAt, monomialAt, monomialAt, map_add]
        ring

theorem evalAt_constant (c : Rat) : (constant c).evalAt point = algebraMap ℚ R c := by
  rw [constant, evalAt_addMonomial]
  simp [monomialAt]

theorem evalAt_leaf (n : Node) : (leaf n).evalAt point = point n := by
  rw [leaf, evalAt_addMonomial]
  simp [monomialAt]

/-- The value of the monomials in a list. -/
def entriesAt (entries : List (MonoVar × Rat)) : R :=
  (entries.map (fun m => monomialAt point m.1 m.2)).sum

omit [LinearOrder MonoVar] in
theorem entriesAt_cons (m : MonoVar × Rat) (rest : List (MonoVar × Rat))
    : entriesAt point (m :: rest) = monomialAt point m.1 m.2 + entriesAt point rest := by
  rw [entriesAt, List.map_cons, List.sum_cons]
  rfl

omit [LinearOrder MonoVar] in
theorem entriesAt_filter (entries : List (MonoVar × Rat))
    : entriesAt point (entries.filter (·.2 ≠ 0)) = entriesAt point entries := by
  induction entries with
  | nil => rfl
  | cons m rest ih =>
      by_cases isZero : m.2 = 0
      · rw [List.filter_cons_of_neg (by simp [isZero]), ih, entriesAt_cons, isZero, monomialAt, map_zero, zero_mul, zero_add]
      · rw [List.filter_cons_of_pos (by simp [isZero]), entriesAt_cons, entriesAt_cons, ih]

theorem evalAt_eq_entriesAt (p : PolyNorm) : p.evalAt point = entriesAt point p.monomials.entries := rfl

theorem evalAt_foldl_addMonomial (entries : List (MonoVar × Rat)) (p : PolyNorm) (isNeg : Bool)
    : (entries.foldl (fun r m => r.addMonomial m.1 m.2 isNeg) p).evalAt point
      = p.evalAt point + (if isNeg then -1 else 1) * entriesAt point entries := by
  induction entries generalizing p with
  | nil => simp [entriesAt]
  | cons m rest ih =>
      rw [List.foldl_cons, ih, evalAt_addMonomial, entriesAt_cons]
      cases isNeg <;> simp [monomialAt] <;> ring

theorem evalAt_add (p q : PolyNorm) : (p.add q).evalAt point = p.evalAt point + q.evalAt point := by
  rw [add, evalAt_foldl_addMonomial, evalAt_eq_entriesAt point q]
  simp

theorem evalAt_subtract (p q : PolyNorm)
    : (p.subtract q).evalAt point = p.evalAt point - q.evalAt point := by
  rw [subtract, evalAt_foldl_addMonomial, evalAt_eq_entriesAt point q]
  simp [sub_eq_add_neg]

theorem evalAt_mulCoeffs (p : PolyNorm) (c : Rat)
    : (p.mulCoeffs c).evalAt point = p.evalAt point * algebraMap ℚ R c := by
  rw [mulCoeffs]
  split
  · next isZero => simp [isZero]
  · rw [evalAt_eq_entriesAt, evalAt_eq_entriesAt]
    simp only [OrderedMap.mapValues]
    generalize p.monomials.entries = entries
    induction entries with
    | nil => simp [entriesAt]
    | cons m rest ih =>
        rw [List.map_cons, entriesAt_cons, entriesAt_cons, ih, monomialAt, monomialAt, map_mul]
        ring

theorem find?_assign_none {y : MonoVar} (differs : y ≠ x) (missing : p.monomials.find? y = none)
    : (p.assign x c).monomials.find? y = none := by
  refine OrderedMap.find?_eq_none.mpr (fun value member => ?_)
  have absent := OrderedMap.find?_eq_none.mp missing value
  rw [assign] at member
  split at member
  · rcases OrderedMap.mem_setEntries member with isNew | old
    · exact differs (congrArg Prod.fst isNew)
    · exact absent old
  · exact absent (List.mem_of_mem_filter member)

/-- The products with a monomial are new ones. -/
theorem evalAt_foldl_assign (entries : List (MonoVar × Rat)) (distinct : (entries.map Prod.fst).Nodup)
    (p : PolyNorm)
    (missing : ∀ m ∈ entries, p.monomials.find? (.multMonoVar m.1 x) = none)
    : (entries.foldl (fun q m => q.assign (.multMonoVar m.1 x) (m.2 * c)) p).evalAt point
      = p.evalAt point + entriesAt point entries * monomialAt point x c := by
  induction entries generalizing p with
  | nil => simp [entriesAt]
  | cons m rest ih =>
      rw [List.map_cons, List.nodup_cons] at distinct
      rw [List.foldl_cons, ih distinct.2, evalAt_assign_new point (missing m List.mem_cons_self),
        entriesAt_cons, monomialAt, monomialAt, monomialAt, MonoVar.evalAt_multMonoVar, map_mul]
      · ring
      · intro other member
        refine find?_assign_none ?_ (missing other (List.mem_cons_of_mem m member))
        intro same
        have sameKey := MonoVar.multMonoVar_injective x same
        exact distinct.1 (sameKey ▸ List.mem_map_of_mem member)

theorem evalAt_multiplyMonomial (p : PolyNorm) (x : MonoVar) (c : Rat)
    : (p.multiplyMonomial x c).evalAt point = p.evalAt point * monomialAt point x c := by
  rw [multiplyMonomial]
  split
  · next isNull => rw [evalAt_mulCoeffs, monomialAt, MonoVar.evalAt_of_vars_nil point isNull, mul_one]
  · rw [evalAt_foldl_assign point _ p.monomials.keys_nodup]
    · rw [evalAt_zero, zero_add, evalAt_eq_entriesAt point p]
    · intro m _
      rfl

theorem evalAt_foldl_multiply (entries : List (MonoVar × Rat)) (p r : PolyNorm)
    : (entries.foldl (fun r m => r.add (p.multiplyMonomial m.1 m.2)) r).evalAt point
      = r.evalAt point + p.evalAt point * entriesAt point entries := by
  induction entries generalizing r with
  | nil => simp [entriesAt]
  | cons m rest ih =>
      rw [List.foldl_cons, ih, evalAt_add, evalAt_multiplyMonomial, entriesAt_cons]
      ring

theorem evalAt_multiply (p q : PolyNorm)
    : (p.multiply q).evalAt point = p.evalAt point * q.evalAt point := by
  rw [multiply, evalAt_eq_entriesAt point q]
  split
  · next m single =>
      rw [evalAt_multiplyMonomial, single, entriesAt_cons]
      simp [entriesAt]
  · rw [evalAt_foldl_multiply, evalAt_zero, zero_add]

/-- Equal polynomials have equal values. -/
theorem evalAt_of_isEqual (equal : p.isEqual q = true) : p.evalAt point = q.evalAt point := by
  rw [isEqual, Bool.and_eq_true, beq_iff_eq, List.all_eq_true] at equal
  refine OrderedMap.total_congr (OrderedMap.perm_of_subset equal.1 (fun m member => ?_))
  exact beq_iff_eq.mp (equal.2 m member)

theorem evalAt_combine (k : Kind) (i : Nat) (ret : PolyNorm) (ps : List PolyNorm)
    : (combine k i ret ps).evalAt point = combineAt k i (ret.evalAt point) (ps.map (evalAt point)) := by
  induction ps generalizing i ret with
  | nil => rfl
  | cons p ps ih =>
      rw [combine, ih, List.map_cons, combineAt]
      congr 1
      split
      · exact evalAt_subtract point ret p
      · split
        · exact evalAt_multiply point ret p
        · exact evalAt_add point ret p

end PolyNorm

end Ava6.Arith.Poly
