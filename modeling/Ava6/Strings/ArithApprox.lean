import Mathlib.Data.Nat.Digits.Lemmas
import Ava6.Strings.PolyNorm
import Ava6.Strings.Word

/-! Bounds from above and from below for integer terms over strings. The conditions of a bound are decided by a check that
a term is not negative.
-/

namespace Ava6.Strings

namespace Word

variable {w t replacement : Word}

theorem length_substr (w : Word) (start length : Int)
    : ((w.substr start length).length : Int)
      = if 0 ≤ start ∧ start < w.length ∧ 0 < length then min length (w.length - start) else 0 := by
  rw [substr]
  split
  · rw [List.length_take, List.length_drop]
    omega
  · rfl

/-- Where a word starts, it ends before the end. -/
theorem findFrom_bounds {start i : Nat} (found : findFrom w t start = some i) : i + t.length ≤ w.length := by
  rw [findFrom] at found
  obtain ⟨inRange, occurs⟩ := List.mem_filter.mp (List.mem_of_head? found)
  rw [Bool.and_eq_true, List.isPrefixOf_iff_prefix] at occurs
  have fits := occurs.2.length_le
  rw [List.length_drop] at fits
  have within := List.mem_range.mp inRange
  omega

theorem length_replace (w t replacement : Word)
    : (w.replace t replacement).length = w.length
      ∨ t.length ≤ w.length ∧ (w.replace t replacement).length + t.length = w.length + replacement.length := by
  rw [replace]
  split
  · next i found =>
      have fits := findFrom_bounds found
      refine Or.inr ⟨by omega, ?_⟩
      rw [List.length_append, List.length_append, List.length_take, List.length_drop]
      omega
  · exact Or.inl rfl

theorem indexof_bounds (w t : Word) (start : Int)
    : -1 ≤ w.indexof t start ∧ (w.indexof t start = -1 ∨ w.indexof t start + t.length ≤ w.length) := by
  rw [indexof]
  split
  · cases found : findFrom w t start.toNat with
    | none => exact ⟨le_refl _, Or.inl rfl⟩
    | some i =>
        have fits := findFrom_bounds found
        simp only [Option.map_some, Option.getD_some, Int.ofNat_eq_natCast]
        omega
  · exact ⟨le_refl _, Or.inl rfl⟩

theorem neg_one_le_toInt (w : Word) : -1 ≤ w.toInt := by
  rw [toInt]
  split
  · omega
  · exact le_refl _

theorem length_fromInt {n : Int} (isNonNegative : 0 ≤ n)
    : 1 ≤ (fromInt n).length ∧ (fromInt n).length ≤ n + 1 ∧ (0 < n → (fromInt n).length ≤ n) := by
  have isSome : 1 ≤ (fromInt n).length := List.length_pos_iff.mpr (fromInt_ne_nil isNonNegative)
  have isLess : 0 < n → ((fromInt n).length : Int) ≤ n := by
    intro isPositive
    rw [fromInt, if_neg (not_lt.mpr isNonNegative), if_neg (ne_of_gt isPositive), List.length_map, List.length_reverse]
    have isLess := (Nat.digits_length_le_iff (by decide : 1 < 10) n.toNat).mpr (Nat.lt_pow_self (by decide))
    omega
  refine ⟨isSome, ?_, isLess⟩
  rcases lt_or_eq_of_le isNonNegative with isPositive | isZero
  · exact le_trans (isLess isPositive) (by omega)
  · rw [← isZero]
    decide

end Word

namespace ArithApprox

variable (check : IntTerm → Bool → Bool)

def checkGeq (a b : IntTerm) : Bool := if a = b then true else check (.sub a b) false

/-- Bounds for the length of a string, from above if `isOverApprox`. -/
def lengthApproximations (isOverApprox : Bool) : StringTerm → List IntTerm
  | .substr x n m =>
      let lenx := .length x
      if isOverApprox then
        (if check m false then [m] else []) ++ (if checkGeq check lenx n then [.sub lenx n] else [lenx])
      else
        let npm := .add (.ofList [n, m])
        (if check n false && checkGeq check lenx npm then [m] else [])
          ++ (if check n false && checkGeq check npm lenx then [.sub lenx n] else [])
  | .replace x y z =>
      let lenx := .length x
      let leny := .length y
      let lenz := .length z
      if isOverApprox then
        if checkGeq check leny lenz then [lenx] else [.add (.ofList [lenx, lenz])]
      else
        if checkGeq check lenz leny || checkGeq check lenz lenx then [lenx] else [.sub lenx leny]
  | .fromInt x =>
      if isOverApprox then
        if check x false then if check x true then [x] else [.add (.ofList [.const 1, x])] else []
      else
        if check x false then [.const 1] else []
  | _ => []

def getArithApproximations (isOverApprox : Bool) : IntTerm → List IntTerm
  | .mult (.cons (.const c) (.cons v .nil)) =>
      (getArithApproximations (if c < 0 then !isOverApprox else isOverApprox) v).map
        (fun t => .mult (.ofList [.const c, t]))
  | .length s => lengthApproximations check isOverApprox s
  | .indexof x y _ =>
      let lenx := .length x
      let leny := .length y
      if isOverApprox then
        if checkGeq check lenx leny then [.sub lenx leny] else [lenx]
      else [.const (-1)]
  | .toInt _ => if isOverApprox then [] else [.const (-1)]
  | _ => []

/-- `y` is a bound for `x`, from above if `isOverApprox`. -/
def Bounds (isOverApprox : Bool) (x y : Int) : Prop := if isOverApprox then x ≤ y else y ≤ x

/-- What is checked is not negative, or is positive if `strict`. -/
def IsSound (check : IntTerm → Bool → Bool) : Prop :=
  ∀ a strict, check a strict = true → ∀ A, 0 ≤ a.eval A ∧ (strict = true → 0 < a.eval A)

variable {check} {A : Assignment}

theorem IsSound.le_of_checkGeq (sound : IsSound check) {a b : IntTerm} (checked : checkGeq check a b = true)
    : b.eval A ≤ a.eval A := by
  rw [checkGeq] at checked
  split at checked
  · next same => rw [same]
  · have isNonNegative := (sound _ _ checked A).1
    rw [IntTerm.eval] at isNonNegative
    omega

theorem eval_add_two (a b : IntTerm) : (IntTerm.add (.ofList [a, b])).eval A = a.eval A + b.eval A := by
  simp [IntTerms.ofList, IntTerm.eval, IntTerms.sum]

theorem substrApproximations_bounds (sound : IsSound check) {isOverApprox : Bool} {x : StringTerm} {n m t : IntTerm}
    (member : t ∈ lengthApproximations check isOverApprox (.substr x n m))
    : Bounds isOverApprox ((StringTerm.substr x n m).eval A).length (t.eval A) := by
  have isLength := Word.length_substr (x.eval A) (n.eval A) (m.eval A)
  have isLenx : (IntTerm.length x).eval A = (x.eval A).length := by rw [IntTerm.eval]
  rw [StringTerm.eval]
  cases isOverApprox with
  | true =>
      simp only [lengthApproximations, if_true, List.mem_append, List.mem_ite_nil_right, List.mem_singleton] at member
      rw [Bounds, if_pos rfl, isLength]
      rcases member with ⟨checked, rfl⟩ | member
      · have isNonNegative := (sound _ _ checked A).1
        split <;> omega
      · split at member
        · next checked =>
            have isLess : n.eval A ≤ (IntTerm.length x).eval A := sound.le_of_checkGeq checked
            rw [List.mem_singleton.mp member, IntTerm.eval]
            split <;> omega
        · rw [List.mem_singleton.mp member]
          split <;> omega
  | false =>
      simp only [lengthApproximations, Bool.false_eq_true, if_false, List.mem_append, List.mem_ite_nil_right,
        List.mem_singleton, Bool.and_eq_true] at member
      rw [Bounds, if_neg Bool.false_ne_true, isLength]
      rcases member with ⟨⟨checked, checkedGeq⟩, rfl⟩ | ⟨⟨checked, checkedGeq⟩, rfl⟩
      · have isNonNegative := (sound _ _ checked A).1
        have within := sound.le_of_checkGeq (A := A) checkedGeq
        rw [eval_add_two] at within
        split <;> omega
      · have isNonNegative := (sound _ _ checked A).1
        have reaches := sound.le_of_checkGeq (A := A) checkedGeq
        rw [eval_add_two] at reaches
        rw [IntTerm.eval]
        split <;> omega

theorem replaceApproximations_bounds (sound : IsSound check) {isOverApprox : Bool} {x y z : StringTerm} {t : IntTerm}
    (member : t ∈ lengthApproximations check isOverApprox (.replace x y z))
    : Bounds isOverApprox ((StringTerm.replace x y z).eval A).length (t.eval A) := by
  have isLength := Word.length_replace (x.eval A) (y.eval A) (z.eval A)
  have isLen (s : StringTerm) : (IntTerm.length s).eval A = (s.eval A).length := by rw [IntTerm.eval]
  rw [StringTerm.eval]
  cases isOverApprox with
  | true =>
      simp only [lengthApproximations, if_true] at member
      rw [Bounds, if_pos rfl]
      split at member
      · next checked =>
          have isLess : (IntTerm.length z).eval A ≤ (IntTerm.length y).eval A := sound.le_of_checkGeq checked
          rw [isLen, isLen] at isLess
          rw [List.mem_singleton.mp member, isLen]
          omega
      · rw [List.mem_singleton.mp member, eval_add_two, isLen, isLen]
        omega
  | false =>
      simp only [lengthApproximations, Bool.false_eq_true, if_false] at member
      rw [Bounds, if_neg Bool.false_ne_true]
      split at member
      · next checked =>
          rw [List.mem_singleton.mp member, isLen]
          rcases Bool.or_eq_true _ _ ▸ checked with checked | checked
          · have isLess : (IntTerm.length y).eval A ≤ (IntTerm.length z).eval A := sound.le_of_checkGeq checked
            rw [isLen, isLen] at isLess
            omega
          · have isLess : (IntTerm.length x).eval A ≤ (IntTerm.length z).eval A := sound.le_of_checkGeq checked
            rw [isLen, isLen] at isLess
            omega
      · rw [List.mem_singleton.mp member, IntTerm.eval, isLen, isLen]
        omega

theorem fromIntApproximations_bounds (sound : IsSound check) {isOverApprox : Bool} {x t : IntTerm}
    (member : t ∈ lengthApproximations check isOverApprox (.fromInt x))
    : Bounds isOverApprox ((StringTerm.fromInt x).eval A).length (t.eval A) := by
  rw [StringTerm.eval]
  cases isOverApprox with
  | true =>
      simp only [lengthApproximations, if_true] at member
      rw [Bounds, if_pos rfl]
      split at member
      · next checked =>
          obtain ⟨-, isLess, isLessOfPos⟩ := Word.length_fromInt (sound _ _ checked A).1
          split at member
          · next checkedStrict =>
              rw [List.mem_singleton.mp member]
              exact isLessOfPos ((sound _ _ checkedStrict A).2 rfl)
          · rw [List.mem_singleton.mp member, eval_add_two, IntTerm.eval]
            omega
      · cases member
  | false =>
      simp only [lengthApproximations, Bool.false_eq_true, if_false, List.mem_ite_nil_right, List.mem_singleton] at member
      obtain ⟨checked, rfl⟩ := member
      have isSome := (Word.length_fromInt (sound _ _ checked A).1).1
      rw [Bounds, if_neg Bool.false_ne_true, IntTerm.eval]
      omega

theorem lengthApproximations_bounds (sound : IsSound check) {isOverApprox : Bool} {s : StringTerm} {t : IntTerm}
    (member : t ∈ lengthApproximations check isOverApprox s)
    : Bounds isOverApprox (s.eval A).length (t.eval A) := by
  match s with
  | .substr x n m => exact substrApproximations_bounds sound member
  | .replace x y z => exact replaceApproximations_bounds sound member
  | .fromInt x => exact fromIntApproximations_bounds sound member
  | .const _ | .var _ | .concat _ | .unit _ => cases member

theorem Bounds.mul {isOverApprox : Bool} {c x y : Int} (bounds : Bounds (if c < 0 then !isOverApprox else isOverApprox) x y)
    : Bounds isOverApprox (c * x) (c * y) := by
  rw [Bounds] at bounds ⊢
  by_cases isNegative : c < 0
  · rw [if_pos isNegative] at bounds
    cases isOverApprox
    · exact mul_le_mul_of_nonpos_left bounds (le_of_lt isNegative)
    · exact mul_le_mul_of_nonpos_left bounds (le_of_lt isNegative)
  · rw [if_neg isNegative] at bounds
    cases isOverApprox
    · exact mul_le_mul_of_nonneg_left bounds (not_lt.mp isNegative)
    · exact mul_le_mul_of_nonneg_left bounds (not_lt.mp isNegative)

/-- Every approximation is a bound, under every assignment. -/
theorem getArithApproximations_bounds (sound : IsSound check) {isOverApprox : Bool} {a t : IntTerm}
    (member : t ∈ getArithApproximations check isOverApprox a)
    : Bounds isOverApprox (a.eval A) (t.eval A) := by
  fun_induction getArithApproximations check isOverApprox a generalizing t with
  | case1 isOverApprox c v ih =>
      obtain ⟨t', member', rfl⟩ := List.mem_map.mp member
      have isProduct (u : IntTerm) : (IntTerm.mult (.ofList [.const c, u])).eval A = c * u.eval A := by
        simp [IntTerms.ofList, IntTerm.eval, IntTerms.product]
      rw [isProduct]
      exact (isProduct v) ▸ (ih member').mul
  | case2 isOverApprox s =>
      rw [IntTerm.eval]
      exact lengthApproximations_bounds sound member
  | case3 x y start lenx leny =>
      next checked =>
      have isLess : (IntTerm.length y).eval A ≤ (IntTerm.length x).eval A := sound.le_of_checkGeq checked
      obtain ⟨-, bounds⟩ := Word.indexof_bounds (x.eval A) (y.eval A) (start.eval A)
      rw [IntTerm.eval, IntTerm.eval] at isLess
      rw [List.mem_singleton.mp member, Bounds, if_pos rfl, IntTerm.eval, IntTerm.eval, IntTerm.eval, IntTerm.eval]
      omega
  | case4 x y start lenx leny =>
      obtain ⟨-, bounds⟩ := Word.indexof_bounds (x.eval A) (y.eval A) (start.eval A)
      rw [List.mem_singleton.mp member, Bounds, if_pos rfl, IntTerm.eval, IntTerm.eval]
      omega
  | case5 isOverApprox x y start isUnder =>
      rw [List.mem_singleton.mp member, Bounds, if_neg isUnder, IntTerm.eval, IntTerm.eval]
      exact (Word.indexof_bounds (x.eval A) (y.eval A) (start.eval A)).1
  | case7 isOverApprox s isUnder =>
      rw [List.mem_singleton.mp member, Bounds, if_neg isUnder, IntTerm.eval, IntTerm.eval]
      exact Word.neg_one_le_toInt _
  | case6 | case8 => cases member

end ArithApprox

end Ava6.Strings
