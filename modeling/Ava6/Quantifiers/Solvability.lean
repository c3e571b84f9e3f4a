import Ava6.Quantifiers.BvInverterUtils
import Ava6.Library.BitVecImage

/-! When a literal has a solution for its variable, stated on values.
A literal is solvable exactly when some member of the operator's image is in relation with
the bound; for the orders this is a comparison with one extreme of the image.
-/

namespace Ava6.Quantifiers.BvInverter

open Ava6.Bv Ava6.Library.BitVecOrder

variable {w : Nat}

def OpKind.apply : OpKind → BitVec w → BitVec w → BitVec w
  | .mult, a, b => a * b
  | .urem, a, b => a % b
  | .udiv, a, b => BitVec.smtUDiv a b
  | .lshr, a, b => a >>> b
  | .ashr, a, b => BitVec.sshiftRight' a b
  | .shl, a, b => a <<< b
  | .and, a, b => a &&& b
  | .or, a, b => a ||| b

/-- The value of the operator with the variable in position `idx` and `s` in the other. -/
def OpKind.result (k : OpKind) (idx : Nat) (s x : BitVec w) : BitVec w :=
  if idx = 0 then k.apply x s else k.apply s x

/-- Some value of the variable makes the literal true. -/
def Solvable (pol : Bool) (litk : LitKind) (k : OpKind) (idx : Nat) (s t : BitVec w) : Prop :=
  ∃ x : BitVec w, litk.relation.holds (k.result idx s x) t = pol

/-- The literal node denotes the relation that `Solvable` quantifies over. -/
theorem eval_literal (v : Valuation) (pol : Bool) (litk : LitKind) (k : OpKind) (idx : Nat)
    (x s t : Term w)
    : (literal pol litk k idx x s t).eval v = true
      ↔ litk.relation.holds (k.result idx (s.eval v) (x.eval v)) (t.eval v) = pol := by
  have node (a b : Term w) : (k.mkNode a b).eval v = k.apply (a.eval v) (b.eval v) := by
    cases k <;> rfl
  unfold literal OpKind.result
  cases pol <;> split <;> simp [node]

/-- The comparison of an extreme of a set with a bound that decides whether some member of
the set is in the given relation with the bound. -/
def condition {image : BitVec w → Prop} (extremes : Extremes image) (pol : Bool)
    (litk : LitKind) (t : BitVec w)
    : Prop :=
  match litk, pol with
  | .equal, true => image t
  | .equal, false => ∃ r, image r ∧ r ≠ t
  | .ult, true => extremes.ulo.ult t = true
  | .ult, false => t.ule extremes.uhi = true
  | .ugt, true => t.ult extremes.uhi = true
  | .ugt, false => extremes.ulo.ule t = true
  | .slt, true => extremes.slo.slt t = true
  | .slt, false => t.sle extremes.shi = true
  | .sgt, true => t.slt extremes.shi = true
  | .sgt, false => extremes.slo.sle t = true

attribute [simp] mkRel mkNe Relation.holds NaryKind.apply BinaryKind.apply

/-- Some member of a set is in relation with a bound exactly when an extreme of the set is. -/
theorem exists_holds_iff {image : BitVec w → Prop} (extremes : Extremes image) (pol : Bool) (litk : LitKind)
    (t : BitVec w)
    : (∃ r, image r ∧ litk.relation.holds r t = pol) ↔ condition extremes pol litk t := by
  cases litk <;> cases pol <;>
    simp only [LitKind.relation, Relation.holds, condition, ult_eq_false, slt_eq_false,
      beq_iff_eq, beq_eq_false_iff_ne, extremes.exists_ult, extremes.exists_uge,
      extremes.exists_ugt, extremes.exists_ule, extremes.exists_slt, extremes.exists_sge,
      extremes.exists_sgt, extremes.exists_sle, exists_eq_right, ne_eq]

/-- Solvability is decided by the extremes of the operator's image. -/
theorem solvable_iff {pol : Bool} {litk : LitKind} {k : OpKind} {idx : Nat} {s t : BitVec w}
    {image : BitVec w → Prop} (spec : ∀ r, (∃ x, k.result idx s x = r) ↔ image r)
    (extremes : Extremes image)
    : Solvable pol litk k idx s t ↔ condition extremes pol litk t := by
  have through
      : Solvable pol litk k idx s t ↔ ∃ r, image r ∧ litk.relation.holds r t = pol := by
    constructor
    · rintro ⟨x, holds⟩
      exact ⟨_, (spec _).mp ⟨x, rfl⟩, holds⟩
    · rintro ⟨r, member, holds⟩
      obtain ⟨x, rfl⟩ := (spec r).mpr member
      exact ⟨x, holds⟩
  rw [through, exists_holds_iff extremes]

section
variable (positive : 0 < w) (b : BitVec w)

@[simp] theorem segment_ulo : (Extremes.segment positive b).ulo = 0#w := by
  unfold Extremes.segment
  split <;> rfl

@[simp] theorem segment_uhi : (Extremes.segment positive b).uhi = b := by
  unfold Extremes.segment
  split <;> rfl

@[simp]
theorem segment_slo
    : (Extremes.segment positive b).slo
      = if 2 ^ (w - 1) ≤ b.toNat then BitVec.twoPow w (w - 1) else 0#w := by
  unfold Extremes.segment
  split <;> rfl

@[simp]
theorem segment_shi
    : (Extremes.segment positive b).shi
      = if 2 ^ (w - 1) ≤ b.toNat then ~~~BitVec.twoPow w (w - 1) else b := by
  unfold Extremes.segment
  split <;> rfl

variable {k : Nat} (bound : k ≤ w)

@[simp] theorem multiples_ulo : (Extremes.multiples positive bound).ulo = 0#w := by
  unfold Extremes.multiples
  split <;> rfl

@[simp]
theorem multiples_uhi : (Extremes.multiples positive bound).uhi = BitVec.allOnes w <<< k := by
  unfold Extremes.multiples
  split <;> rfl

@[simp]
theorem multiples_slo
    : (Extremes.multiples positive bound).slo
      = if k = w then 0#w else BitVec.twoPow w (w - 1) := by
  unfold Extremes.multiples
  split <;> rfl

@[simp]
theorem multiples_shi
    : (Extremes.multiples positive bound).shi
      = ~~~BitVec.twoPow w (w - 1) &&& BitVec.allOnes w <<< k := by
  unfold Extremes.multiples
  split <;> rfl

end

/-- A set with the members `c` and `s`, and no others when they are equal, has a member that
differs from `t` unless all three are equal. -/
theorem exists_ne_iff {image : BitVec w → Prop} {s c : BitVec w} (constant : image c)
    (self : image s) (only : s = c → ∀ r, image r → r = c) (t : BitVec w)
    : (∃ r, image r ∧ r ≠ t) ↔ s ≠ c ∨ t ≠ c := by
  constructor
  · rintro ⟨r, member, differ⟩
    by_contra! both
    exact differ ((only both.1 r member).trans both.2.symm)
  · rintro (differs | differs)
    · by_cases same : s = t
      · exact ⟨c, constant, fun equal => differs (same.trans equal.symm)⟩
      · exact ⟨s, self, same⟩
    · exact ⟨c, constant, differs.symm⟩

/-- Some value up to `b` differs from `t` unless both are zero. -/
theorem exists_segment_ne (b t : BitVec w)
    : (∃ r : BitVec w, r.toNat ≤ b.toNat ∧ r ≠ t) ↔ b ≠ 0#w ∨ t ≠ 0#w := by
  have zero : (0#w).toNat ≤ b.toNat := by simp
  refine exists_ne_iff zero (Nat.le_refl _) ?_ t
  rintro rfl r le
  exact BitVec.eq_of_toNat_eq (Nat.le_zero.mp le)

/-- Some multiple of `2 ^ k` differs from `t` unless zero is the only one and is `t`. -/
theorem exists_multiple_ne {k : Nat} (bound : k ≤ w) (t : BitVec w)
    : (∃ r : BitVec w, 2 ^ k ∣ r.toNat ∧ r ≠ t) ↔ t ≠ 0#w ∨ k ≠ w := by
  constructor
  · rintro ⟨r, divides, differ⟩
    by_contra! whole
    have value : r.toNat = 0 :=
      Nat.eq_zero_of_dvd_of_lt divides (by rw [whole.2]; exact r.isLt)
    exact differ (BitVec.eq_of_toNat_eq (by simp [value, whole.1]))
  · rintro (nonzero | inside)
    · exact ⟨0#w, by simp, fun zero => nonzero zero.symm⟩
    · by_cases zero : t = 0#w
      · refine ⟨BitVec.twoPow w k, ?_, ?_⟩
        · rw [BitVec.toNat_twoPow_of_lt (by omega)]
        · intro same
          have value := congrArg BitVec.toNat (same.trans zero)
          rw [BitVec.toNat_twoPow_of_lt (by omega)] at value
          simp at value
      · exact ⟨0#w, by simp, fun same => zero same.symm⟩

end Ava6.Quantifiers.BvInverter
