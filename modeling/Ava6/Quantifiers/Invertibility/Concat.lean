import Ava6.Quantifiers.Solvability
import Ava6.Library.BitVecAppend

/-! Concatenations: the bound is read in slices of the widths of the children, the slices before the variable and after
it are compared with the other children, and its own slice with the extremes of its width.
-/

namespace Ava6.Quantifiers.BvInverter

open Ava6.Bv Ava6.Library.BitVecOrder

variable {n : Nat}

/-- A vector is the concatenation of its two slices. -/
theorem append_slices {m w : Nat} {t : BitVec (m + w)} {high : BitVec m} {low : BitVec w}
    (highSlice : high.toNat = t.toNat / 2 ^ w % 2 ^ m) (lowSlice : low.toNat = t.toNat / 2 ^ 0 % 2 ^ w)
    : t = high ++ low := by
  have bound := t.isLt
  rw [Nat.pow_add, Nat.mul_comm] at bound
  rw [Nat.mod_eq_of_lt (Nat.div_lt_of_lt_mul bound)] at highSlice
  rw [Nat.pow_zero, Nat.div_one] at lowSlice
  apply BitVec.eq_of_toNat_eq
  rw [toNat_append_eq, highSlice, lowSlice, Nat.div_add_mod']

/-- A vector is the concatenation of its three slices. -/
theorem append_three_slices {w1 wx w2 : Nat} {t : BitVec (w1 + (wx + w2))} {t1 : BitVec w1} {tx : BitVec wx}
    {t2 : BitVec w2} (slice1 : t1.toNat = t.toNat / 2 ^ (wx + w2) % 2 ^ w1)
    (sliceX : tx.toNat = t.toNat / 2 ^ w2 % 2 ^ wx) (slice2 : t2.toNat = t.toNat / 2 ^ 0 % 2 ^ w2)
    : t = t1 ++ (tx ++ t2) := by
  apply append_slices slice1
  rw [toNat_append_eq, sliceX, slice2, Nat.pow_zero, Nat.div_one, Nat.pow_add, Nat.mul_comm (2 ^ wx),
    Nat.mod_mul, Nat.mul_comm (2 ^ w2), Nat.add_comm]

section Conditions
variable (v : Valuation) (pol : Bool) (litk : LitKind) {w1 wx w2 : Nat}

/-- An implication between conditions. -/
theorem not_or_eq_true_iff (a b : Bool) : (!a || b) = true ↔ (a = true → b = true) := by
  cases a <;> simp

theorem exists_ne_value (positive : 0 < wx) (t : BitVec wx) : ∃ x : BitVec wx, x ≠ t := by
  have nontrivial : BitVec.ofNat wx 0 ≠ BitVec.allOnes wx := by
    intro same
    have values := congrArg BitVec.toNat same
    have large := Nat.one_lt_two_pow positive.ne'
    simp at values
    omega
  by_cases zero : t = BitVec.ofNat wx 0
  · exact ⟨BitVec.allOnes wx, by rw [zero]; exact nontrivial.symm⟩
  · exact ⟨BitVec.ofNat wx 0, Ne.symm zero⟩

theorem eval_sclBvConcatFirst (tx : Term wx) (s2 t2 : Term w2)
    : (sclBvConcatFirst pol litk tx s2 t2).eval v = true
      ↔ ∃ x : BitVec wx, litk.relation.holds (x ++ s2.eval v) (tx.eval v ++ t2.eval v) = pol := by
  have positive := tx.positive
  have different := exists_ne_value positive (tx.eval v)
  cases litk <;> cases pol <;>
    simp only [sclBvConcatFirst, LitKind.relation, Relation.holds, ult_eq_false, slt_eq_false, beq_iff_eq,
      beq_eq_false_iff_ne, append_eq_iff, append_ult_iff, append_slt_iff positive, append_ule_iff,
      append_sle_iff positive, not_and_or, exists_or, exists_eq_left, exists_eq_left', exists_ult_iff, exists_ugt_iff,
      exists_slt_iff positive, exists_sgt_iff positive, mkRel, Formula.eval, eval_mkZero, eval_mkOnes,
      eval_mkMinSigned, eval_mkMaxSigned, Bool.or_eq_true, Bool.not_eq_true', ne_eq, true_iff, ← imp_iff_not_or]
  all_goals tauto

theorem eval_sclBvConcatLast (s1 t1 : Term w1) (tx : Term wx)
    : (sclBvConcatLast pol litk s1 t1 tx).eval v = true
      ↔ ∃ x : BitVec wx, litk.relation.holds (s1.eval v ++ x) (t1.eval v ++ tx.eval v) = pol := by
  have positive := s1.positive
  have different : ∃ x : BitVec wx, ¬x = tx.eval v := exists_ne_value tx.positive (tx.eval v)
  have below : ∃ x : BitVec wx, x.ule (tx.eval v) = true := ⟨_, (ule_iff_ult_or_eq _ _).mpr (Or.inr rfl)⟩
  have above : ∃ x : BitVec wx, (tx.eval v).ule x = true := ⟨_, (ule_iff_ult_or_eq _ _).mpr (Or.inr rfl)⟩
  cases litk <;> cases pol <;>
    simp only [sclBvConcatLast, LitKind.relation, Relation.holds, ult_eq_false, slt_eq_false, beq_iff_eq,
      beq_eq_false_iff_ne, append_eq_iff, append_ult_iff, append_slt_iff positive, append_ule_iff,
      append_sle_iff positive, ne_eq, not_and_or, exists_or, exists_const, exists_and_left, exists_eq, and_true,
      exists_ult_iff, exists_ugt_iff, mkRel, mkNe, Formula.eval, eval_mkZero, eval_mkOnes, evalAll, Bool.and_eq_true,
      not_or_eq_true_iff, Bool.not_eq_true', ule_and_imp_iff, sle_and_imp_iff, ule_and_imp_symm_iff,
      sle_and_imp_symm_iff, below, above, different, or_true]
  -- the negated orders remain: the first slice is at most the other one
  case ult.false | ugt.false => exact ule_iff_ult_or_eq _ _
  case slt.false | sgt.false => exact sle_iff_slt_or_eq _ _

theorem eval_sclBvConcatMiddle (s1 t1 : Term w1) (tx : Term wx) (s2 t2 : Term w2)
    : (sclBvConcatMiddle pol litk s1 t1 tx s2 t2).eval v = true
      ↔ ∃ x : BitVec wx,
          litk.relation.holds (s1.eval v ++ (x ++ s2.eval v)) (t1.eval v ++ (tx.eval v ++ t2.eval v)) = pol := by
  have positive := s1.positive
  have different : ∃ x : BitVec wx, ¬x = tx.eval v := exists_ne_value tx.positive (tx.eval v)
  cases litk <;> cases pol <;>
    simp only [sclBvConcatMiddle, LitKind.relation, Relation.holds, ult_eq_false, slt_eq_false, beq_iff_eq,
      beq_eq_false_iff_ne, append_eq_iff, append_ult_iff, append_slt_iff positive, append_ule_iff,
      append_sle_iff positive, ne_eq, not_and_or, exists_or, exists_const, exists_and_left, exists_eq_left,
      exists_eq_left', exists_ult_iff, exists_ugt_iff, mkRel, Formula.eval, eval_mkZero, eval_mkOnes, evalAll,
      Bool.and_eq_true, and_true, and_imp, not_or_eq_true_iff, ule_and_imp_iff, sle_and_imp_iff, ule_and_imp_symm_iff,
      sle_and_imp_symm_iff, different, true_or, or_true]
  all_goals rw [imp_iff_not_or]

end Conditions

/-- The child in position `idx` replaced by the given node of its width. -/
def replace (x : (k : Nat) → 0 < k → Term k) : {n : Nat} → Parts n → Nat → Parts n
  | _, .single a, 0 => .single (x _ a.positive)
  | _, .single a, _ + 1 => .single a
  | _, .cons a rest, 0 => .cons (x _ a.positive) rest
  | _, .cons a rest, idx + 1 => .cons a (replace x rest idx)

def childCount : {n : Nat} → Parts n → Nat
  | _, .single _ => 1
  | _, .cons _ rest => childCount rest + 1

theorem sum_two {w1 w2 : Nat} (width : n = w1 + w2) : w1 + w2 = n := width.symm

theorem sum_three {w1 wx w2 : Nat} (width : n = w1 + (wx + w2)) : w1 + (wx + w2) = n := width.symm

/-- The children of the position with the node `x` in the place of its child. -/
def Position.value (v : Valuation) (x : (k : Nat) → BitVec k) : Position n → BitVec n
  | @Position.whole _ _ => x n
  | @Position.first _ wx _ width _ s2 => (x wx ++ s2.eval v).cast (sum_two width)
  | @Position.last _ _ wx width s1 _ => (s1.eval v ++ x wx).cast (sum_two width)
  | @Position.middle _ _ wx _ width s1 _ s2 => (s1.eval v ++ (x wx ++ s2.eval v)).cast (sum_three width)

/-- A concatenation in which a child before all others is put. -/
theorem value_prepend (v : Valuation) (x : (k : Nat) → BitVec k) {m : Nat} (a : Term m) (p : Position n)
    : (p.prepend a).value v x = a.eval v ++ p.value v x := by
  cases p with
  | whole child => rfl
  | first width child s2 => cases width; rfl
  | last width s1 child =>
    cases width
    simp only [Position.prepend, Position.value, Parts.eval, BitVec.append_assoc, BitVec.cast_cast, BitVec.cast_eq]
  | middle width s1 child s2 =>
    cases width
    simp only [Position.prepend, Position.value, Parts.eval, BitVec.append_assoc, BitVec.cast_cast, BitVec.cast_eq]

/-- The position read off the children is theirs, by induction on them. -/
theorem eval_replace (v : Valuation) (x : (k : Nat) → 0 < k → Term k) (value : (k : Nat) → BitVec k)
    (same : ∀ k positive, (x k positive).eval v = value k)
    : ∀ {n : Nat} (parts : Parts n) (idx : Nat) (p : Position n), position parts idx = some p →
      (replace x parts idx).eval v = p.value v value
  | _, .single a, 0, p, found => by
    obtain rfl := Option.some.inj found
    exact same _ a.positive
  | _, .cons a rest, 0, p, found => by
    obtain rfl := Option.some.inj found
    simp [replace, Parts.eval, Position.value, same]
  | _, .cons a rest, idx + 1, p, found => by
    obtain ⟨inner, innerFound, rfl⟩ := Option.map_eq_some_iff.mp found
    rw [value_prepend, ← eval_replace v x value same rest idx inner innerFound]
    rfl

/-- There is a position for every child, and it is not the whole if there are other children. -/
theorem position_isSome : ∀ {n : Nat} (parts : Parts n) (idx : Nat), idx < childCount parts →
    ∃ p, position parts idx = some p ∧ (1 < childCount parts → ∀ child, p ≠ .whole child)
  | _, .single a, 0, _ => ⟨_, rfl, fun several => absurd several (by simp [childCount])⟩
  | _, .single a, idx + 1, inside => absurd inside (by simp [childCount])
  | _, .cons a rest, 0, _ => ⟨_, rfl, fun _ _ => nofun⟩
  | _, .cons a rest, idx + 1, inside => by
    obtain ⟨p, found, _⟩ := position_isSome rest idx (Nat.lt_of_succ_lt_succ inside)
    refine ⟨p.prepend a, by simp [position, found], fun _ child => ?_⟩
    cases p <;> nofun

@[simp]
theorem eval_partsNode (v : Valuation) (parts : Parts n) : (partsNode parts).eval v = parts.eval v := by
  cases parts <;> rfl

/-- A family of values is given by its value at one width, if only this is read. -/
theorem exists_family {k : Nat} {p : BitVec k → Prop} : (∃ x : (k : Nat) → BitVec k, p (x k)) ↔ ∃ x : BitVec k, p x := by
  constructor
  · rintro ⟨x, holds⟩
    exact ⟨x k, holds⟩
  · rintro ⟨x, holds⟩
    refine ⟨fun m => if same : k = m then x.cast same else 0#m, ?_⟩
    simpa using holds

/-- Some value of the child makes the literal true. -/
def ConcatSolvable (v : Valuation) (pol : Bool) (litk : LitKind) (idx : Nat) (sv_t : Parts n) (t : Term n) : Prop :=
  ∃ x : (k : Nat) → BitVec k,
    litk.relation.holds ((replace (fun k positive => .const positive (x k)) sv_t idx).eval v) (t.eval v) = pol

/-- The condition is an implication of the literal, with the variable in its place, by its solvability. -/
theorem getICBvConcat_spec (v : Valuation) (pol : Bool) (litk : LitKind) (idx : Nat)
    (x : (k : Nat) → 0 < k → Term k) (sv_t : Parts n) (t : Term n)
    (inside : idx < childCount sv_t) (several : 1 < childCount sv_t)
    : ∃ scl scr, getICBvConcat pol litk idx x sv_t t = some (.implies scl (mkLiteral pol litk scr t))
      ∧ scr.eval v = (replace x sv_t idx).eval v
      ∧ (scl.eval v = true ↔ ConcatSolvable v pol litk idx sv_t t) := by
  obtain ⟨p, found, notWhole⟩ := position_isSome sv_t idx inside
  have solvable : ConcatSolvable v pol litk idx sv_t t
      ↔ ∃ x : (k : Nat) → BitVec k, litk.relation.holds (p.value v x) (t.eval v) = pol := by
    refine exists_congr (fun x => ?_)
    rw [eval_replace v _ x (fun _ _ => rfl) sv_t idx p found]
  let value (k : Nat) : BitVec k := if positive : 0 < k then (x k positive).eval v else 0#k
  have same k (positive : 0 < k) : (x k positive).eval v = value k := by simp [value, positive]
  have replaced := eval_replace v x value same sv_t idx p found
  unfold getICBvConcat
  rw [found, solvable]
  cases p with
  | whole child => exact absurd rfl (notWhole several child)
  | first width child s2 =>
    cases width
    refine ⟨_, _, rfl, ?_, ?_⟩
    · rw [replaced]
      simp [Position.value, same]
    · rw [eval_sclBvConcatFirst, ← append_slices (t := t.eval v) (by simp) (by simp), eval_partsNode]
      exact exists_family.symm
  | last width s1 child =>
    cases width
    refine ⟨_, _, rfl, ?_, ?_⟩
    · rw [replaced]
      simp [Position.value, same]
    · rw [eval_sclBvConcatLast, ← append_slices (t := t.eval v) (by simp) (by simp), eval_partsNode]
      exact exists_family.symm
  | middle width s1 child s2 =>
    cases width
    refine ⟨_, _, rfl, ?_, ?_⟩
    · rw [replaced]
      simp [Position.value, same, BitVec.append_assoc]
    · rw [eval_sclBvConcatMiddle, ← append_three_slices (t := t.eval v) (by simp) (by simp) (by simp), eval_partsNode,
        eval_partsNode]
      exact exists_family.symm

end Ava6.Quantifiers.BvInverter
