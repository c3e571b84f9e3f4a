import Ava6.Quantifiers.Solvability

/-! Facts shared by the three shifts: amounts from the width on all shift alike, so that the
`w + 1` amounts of the default condition cover every vector.
-/

namespace Ava6.Quantifiers.BvInverter

open Ava6.Bv Ava6.Library.BitVecOrder

variable {w : Nat}

/-- The operators that shift by their second argument. -/
def OpKind.isShift : OpKind → Bool
  | .lshr | .ashr | .shl => true
  | _ => false

theorem toNat_amount {i : Nat} (bound : i ≤ w) : (BitVec.ofNat w i).toNat = i := by
  rw [BitVec.toNat_ofNat, Nat.mod_eq_of_lt (Nat.lt_of_le_of_lt bound Nat.lt_two_pow_self)]

/-- Shifting by the width or more gives what shifting by the width gives. -/
theorem apply_amount {k : OpKind} (shift : k.isShift = true) (s x : BitVec w)
    : k.apply s x = k.apply s (BitVec.ofNat w (min x.toNat w)) := by
  have amount := toNat_amount (Nat.min_le_right x.toNat w)
  rcases Nat.le_total x.toNat w with below | above
  · rw [Nat.min_eq_left below, BitVec.ofNat_toNat, BitVec.setWidth_eq]
  · rw [Nat.min_eq_right above] at amount ⊢
    cases k <;> simp only [OpKind.isShift, Bool.false_eq_true] at shift <;>
      simp only [OpKind.apply, BitVec.ushiftRight_eq', BitVec.shiftLeft_eq',
        BitVec.sshiftRight_eq', amount]
    · rw [BitVec.ushiftRight_eq_zero above, BitVec.ushiftRight_eq_zero (Nat.le_refl w)]
    · apply BitVec.eq_of_getLsbD_eq
      intro i inside
      have outside (n : Nat) (le : w ≤ n) : ¬ n + i < w := by omega
      rw [BitVec.getLsbD_sshiftRight, BitVec.getLsbD_sshiftRight, if_neg (outside _ above),
        if_neg (outside _ (Nat.le_refl w))]
    · rw [BitVec.shiftLeft_eq_zero above, BitVec.shiftLeft_eq_zero (Nat.le_refl w)]

/-- Shifting by the amount zero changes nothing. -/
theorem apply_zero {k : OpKind} (shift : k.isShift = true) (s : BitVec w)
    : k.apply s 0#w = s := by
  cases k <;> simp only [OpKind.isShift, Bool.false_eq_true] at shift <;> simp [OpKind.apply]

/-- Some amount gives a value with a property exactly when one of `0..w` does. -/
theorem exists_amount {k : OpKind} (shift : k.isShift = true) (s : BitVec w)
    (property : BitVec w → Prop)
    : (∃ x : BitVec w, property (k.apply s x))
      ↔ property s ∨ ∃ i < w, property (k.apply s (BitVec.ofNat w (i + 1))) := by
  constructor
  · rintro ⟨x, holds⟩
    rw [apply_amount shift] at holds
    rcases amount : min x.toNat w with _ | i
    · rw [amount, apply_zero shift] at holds
      exact Or.inl holds
    · exact Or.inr ⟨i, by omega, amount ▸ holds⟩
  · rintro (holds | ⟨i, _, holds⟩)
    · exact ⟨0#w, (apply_zero shift s).symm ▸ holds⟩
    · exact ⟨_, holds⟩

/-- The node kind of a shift. -/
def OpKind.binaryKind : OpKind → BinaryKind
  | .lshr => .lshr
  | .ashr => .ashr
  | .shl => .shl
  | .udiv => .udiv
  | _ => .urem

/-- The default condition says that some shift amount satisfies the relation. -/
theorem eval_defaultShiftIC (v : Valuation) {k : OpKind} (shift : k.isShift = true)
    (litk : Relation) (s t : Term w)
    : (defaultShiftIC litk k.binaryKind s t).eval v = true
      ↔ ∃ x, litk.holds (k.apply (s.eval v) x) (t.eval v) = true := by
  rw [exists_amount shift (s.eval v) (fun r => litk.holds r (t.eval v) = true)]
  have node (i : Nat)
      : (Term.binary k.binaryKind s (mkConst w (i + 1) s.positive)).eval v
        = k.apply (s.eval v) (BitVec.ofNat w (i + 1)) := by
    cases k <;> simp only [OpKind.isShift, Bool.false_eq_true] at shift <;> rfl
  simp only [defaultShiftIC, Formula.eval, evalAny, Bool.or_eq_true, evalAny_eq_true,
    List.mem_map, List.mem_range, mkRel]
  constructor
  · rintro (first | ⟨_, ⟨i, inside, rfl⟩, holds⟩)
    · exact Or.inl first
    · exact Or.inr ⟨i, inside, by rw [← node]; exact holds⟩
  · rintro (first | ⟨i, inside, holds⟩)
    · exact Or.inl first
    · exact Or.inr ⟨_, ⟨i, inside, rfl⟩, by rw [← node] at holds; exact holds⟩

/-- A logical shift is the identity or clears the sign and at least halves the value. -/
theorem toNat_ushiftRight_cases (positive : 0 < w) (x s : BitVec w)
    : (s.toNat = 0 ∧ (x >>> s).toNat = x.toNat)
      ∨ (0 < s.toNat ∧ 2 * (x >>> s).toNat ≤ x.toNat ∧ (x >>> s).toNat < 2 ^ (w - 1)) := by
  have double := two_pow_eq_double_half positive
  have bound := x.isLt
  rw [BitVec.ushiftRight_eq', BitVec.toNat_ushiftRight, Nat.shiftRight_eq_div_pow]
  rcases Nat.eq_zero_or_pos s.toNat with zero | more
  · left
    simp [zero]
  · right
    have two : 2 ^ 1 ≤ 2 ^ s.toNat := Nat.pow_le_pow_right Nat.zero_lt_two more
    have below := Nat.div_mul_le_self x.toNat (2 ^ s.toNat)
    have twice := Nat.mul_le_mul_left (x.toNat / 2 ^ s.toNat) two
    omega

/-- The literal is solvable for a shift amount when the relation, or its converse for the
negated literal, holds of some shifted value. -/
theorem solvable_amount {pol : Bool} {litk : LitKind} {k : OpKind} {idx : Nat}
    (right : idx ≠ 0) (s t : BitVec w)
    : Solvable pol litk k idx s t ↔ ∃ x, litk.relation.holds (k.apply s x) t = pol := by
  simp only [Solvable, OpKind.result, if_neg right]

end Ava6.Quantifiers.BvInverter
