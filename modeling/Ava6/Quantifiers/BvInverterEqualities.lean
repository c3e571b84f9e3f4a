import Ava6.Quantifiers.BvInverterChildren
import Mathlib.Data.Nat.Prime.Basic

/-! Equalities: an operator that is inverted is moved to the other side without a change of meaning, so a solution that
needs no witness term is equivalent to the literal, however long the path is.
-/

namespace Ava6.Quantifiers.BvInverter

open Ava6.Bv

variable {n : Nat}

/-- The product of an odd vector and its inverse is one. -/
theorem modInverse_mul {value : BitVec n} (odd : value.getLsbD 0 = true)
    : BitVec.ofInt n (modInverse value.toNat (2 ^ n)) * value = 1#n := by
  have coprime : Nat.gcd value.toNat (2 ^ n) = 1 := by
    have oddValue : value.toNat % 2 = 1 := by
      simpa [BitVec.getLsbD, Nat.testBit_zero] using odd
    exact Nat.Coprime.pow_right n (Nat.coprime_two_right.mpr (Nat.odd_iff.mpr oddValue))
  have bezout := Nat.gcd_eq_gcd_ab value.toNat (2 ^ n)
  rw [coprime] at bezout
  have inverse : (Nat.gcdA value.toNat (2 ^ n) % (2 ^ n : Nat) * value.toNat) % (2 ^ n : Nat) = 1 % (2 ^ n : Nat) := by
    rw [Int.mul_emod, Int.emod_emod, ← Int.mul_emod, Int.mul_comm]
    rw [← Nat.cast_one, bezout, Int.add_mul_emod_self_left]
  have product : BitVec.ofInt n (Nat.gcdA value.toNat (2 ^ n) % (2 ^ n : Nat)) * value
      = BitVec.ofInt n (Nat.gcdA value.toNat (2 ^ n) % (2 ^ n : Nat) * value.toNat) := by
    rw [BitVec.ofInt_mul, BitVec.ofInt_natCast, BitVec.ofNat_toNat, BitVec.setWidth_eq]
  rw [modInverse, if_pos coprime, product]
  apply BitVec.eq_of_toNat_eq
  rw [BitVec.toNat_ofInt, inverse]
  norm_cast

theorem oddConstant_some {s : Term n} {value : BitVec n} (found : oddConstant s = some value)
    : value.getLsbD 0 = true ∧ ∀ v, s.eval v = value := by
  unfold oddConstant at found
  split at found
  · split at found
    · rename_i odd
      obtain rfl := Option.some.inj found
      exact ⟨odd, fun v => rfl⟩
    · cases found
  · cases found

theorem xor_eq_iff (a s t : BitVec n) : a ^^^ s = t ↔ a = t ^^^ s := by
  constructor
  · rintro rfl
    rw [BitVec.xor_assoc, BitVec.xor_self, BitVec.xor_zero]
  · rintro rfl
    rw [BitVec.xor_assoc, BitVec.xor_self, BitVec.xor_zero]

theorem mul_eq_iff_of_inverse {inverse s : BitVec n} (unit : inverse * s = 1#n) (a t : BitVec n)
    : a * s = t ↔ a = inverse * t := by
  constructor
  · rintro rfl
    rw [BitVec.mul_comm a, ← BitVec.mul_assoc, unit, BitVec.one_mul]
  · rintro rfl
    rw [BitVec.mul_comm inverse, BitVec.mul_assoc, unit, BitVec.mul_one]

variable {k : Nat}

/-- The generic branch goes to the child or fails, and never inverts the operator. -/
theorem genericStep_cases {m : Nat} (pol : Bool) (litk : LitKind) (x child : Term k) (t : Term m)
    : (∃ same : m = k, ∃ ic, variableIC pol litk x (t.cast same) = some ic
        ∧ genericStep pol litk x child t = .condition child ic)
      ∨ genericStep pol litk x child t = .null ∨ genericStep pol litk x child t = .illSorted := by
  unfold genericStep
  split
  · rename_i same
    split
    · rename_i ic built
      exact Or.inl ⟨same, ic, built, rfl⟩
    · exact Or.inr (Or.inl rfl)
  · split
    · exact Or.inr (Or.inl rfl)
    · exact Or.inr (Or.inr rfl)

variable {index slv : Nat} {pol : Bool} {sv_t t : Term n}

/-- The operators other than concatenation that are inverted give an equivalent equality. -/
theorem step_equal_inverted {child t' : Term k}
    (taken : step slv pol .equal index sv_t t = .inverted child t') (allowed : isConcat sv_t = false) (v : Valuation)
    : sv_t.eval v = t.eval v ↔ child.eval v = t'.eval v := by
  cases sv_t with
  | unary kind a =>
    cases taken
    cases kind with
    | not => exact BitVec.not_eq_comm
    | neg => exact neg_eq_iff_eq_neg
  | nary kind first rest =>
    simp only [step] at taken
    split at taken
    · cases taken
    · rename_i dropped s found
      rw [eval_dropChild v found]
      cases kind with
      | and => cases taken
      | or => cases taken
      | add =>
        cases taken
        exact eq_sub_iff_add_eq.symm
      | xor =>
        cases taken
        exact xor_eq_iff _ _ _
      | mult =>
        simp only [if_true] at taken
        split at taken
        · rename_i value odd
          cases taken
          obtain ⟨odd, constant⟩ := oddConstant_some odd
          change dropped.eval v * s.eval v = t.eval v ↔ dropped.eval v = BitVec.ofInt n _ * t.eval v
          rw [constant]
          exact mul_eq_iff_of_inverse (modInverse_mul odd) _ _
        · cases taken
  | binary kind a b => cases kind <;> cases taken
  | flag kind a b =>
    simp only [step] at taken
    split at taken
    · rcases genericStep_cases pol .equal _ _ t with ⟨_, ic, _, built⟩ | built | built <;>
        (rw [built] at taken; cases taken)
    · cases taken
  | concat parts => cases allowed
  | signExtend amount a =>
    simp only [step] at taken
    split at taken <;> cases taken
  | _ => cases taken

/-- The node the loop goes to. -/
def Step.next : Step → Option (Σ k : Nat, Term k)
  | .null | .illSorted => none
  | .inverted child _ => some ⟨_, child⟩
  | .condition child _ => some ⟨_, child⟩

variable {litk : LitKind}

theorem genericStep_next {m : Nat} {x child : Term k} {t : Term m}
    {next : Σ k : Nat, Term k} (goes : (genericStep pol litk x child t).next = some next)
    : next = ⟨k, child⟩ := by
  rcases genericStep_cases pol litk x child t with ⟨_, ic, _, built⟩ | built | built <;> rw [built] at goes
  · exact (Option.some.inj goes).symm
  · cases goes
  · cases goes

theorem dropChild_childAt {k : NaryKind} {first : Term n} {rest : Args n} {child s : Term n}
    (dropped : dropChild k first rest index = some (child, s))
    : childAt (.nary k first rest) index = some ⟨n, child⟩ := by
  cases index with
  | zero =>
    cases rest with
    | nil => cases dropped
    | cons head tail =>
      obtain ⟨rfl, _⟩ := Prod.mk.inj (Option.some.inj dropped)
      rfl
  | succ i =>
    obtain ⟨taken, found, same⟩ := Option.map_eq_some_iff.mp dropped
    obtain ⟨rfl, _⟩ := Prod.mk.inj same
    exact congrArg (Option.map _) found

/-- The loop goes to the child that the path names. -/
theorem step_next
    {named next : Σ k : Nat, Term k} (at_index : childAt sv_t index = some named)
    (goes : (step slv pol litk index sv_t t).next = some next)
    : next = named := by
  cases sv_t with
  | unary kind a =>
    obtain _ | i := index
    · obtain rfl := Option.some.inj at_index
      simp only [step] at goes
      split at goes
      · exact (Option.some.inj goes).symm
      · exact genericStep_next goes
    · cases at_index
  | nary kind first rest =>
    simp only [step] at goes
    split at goes
    · cases goes
    · rename_i child s dropped
      obtain rfl := Option.some.inj ((dropChild_childAt dropped).symm.trans at_index)
      cases kind with
      | and => exact (Option.some.inj goes).symm
      | or => exact (Option.some.inj goes).symm
      | add =>
        simp only at goes
        split at goes
        · exact (Option.some.inj goes).symm
        · exact genericStep_next goes
      | xor =>
        simp only at goes
        split at goes
        · exact (Option.some.inj goes).symm
        · exact genericStep_next goes
      | mult =>
        simp only at goes
        split at goes <;> exact (Option.some.inj goes).symm
  | binary kind a b =>
    have child : named = ⟨n, if index = 0 then a else b⟩ := by
      obtain _ | _ | i := index
      · exact (Option.some.inj at_index).symm
      · exact (Option.some.inj at_index).symm
      · cases at_index
    subst child
    cases kind <;> first | exact (Option.some.inj goes).symm | cases goes
  | @flag m kind a b =>
    have child : named = ⟨m, if index = 0 then a else b⟩ := by
      obtain _ | _ | i := index
      · exact (Option.some.inj at_index).symm
      · exact (Option.some.inj at_index).symm
      · cases at_index
    subst child
    simp only [step] at goes
    split at goes
    · exact genericStep_next goes
    · cases goes
  | concat parts =>
    obtain ⟨p, placed, rfl⟩ := Option.map_eq_some_iff.mp at_index
    simp only [step, placed] at goes
    split at goes
    · cases p with
      | whole child => cases goes
      | _ => exact (Option.some.inj goes).symm
    · split at goes
      · cases goes
      · exact (Option.some.inj goes).symm
  | signExtend amount a =>
    obtain _ | i := index
    · obtain rfl := Option.some.inj at_index
      simp only [step] at goes
      split at goes
      · cases goes
      · exact (Option.some.inj goes).symm
    · cases at_index
  | _ => cases goes

theorem variableIC_unsolved {x : Term n} {ic : Formula}
    (built : variableIC pol litk x t = some ic) (slv : Variable)
    : solvedForm slv ic = none := by
  cases litk <;> cases pol <;> cases built <;> rfl

/-- The conditions are not equalities, so they are not solved for the variable as they stand. -/
theorem step_condition_unsolved
    {child : Term k} {ic : Formula} (taken : step slv pol litk index sv_t t = .condition child ic) (x : Variable)
    : solvedForm x ic = none := by
  have generic {m j : Nat} {y a : Term m} {s : Term j} (same : genericStep pol litk y a s = .condition child ic)
      : solvedForm x ic = none := by
    rcases genericStep_cases pol litk y a s with ⟨_, _, inner, built⟩ | built | built <;> rw [built] at same
    · cases same
      exact variableIC_unsolved inner x
    · cases same
    · cases same
  cases sv_t with
  | unary kind a =>
    simp only [step] at taken
    split at taken
    · cases taken
    · exact generic taken
  | nary kind first rest =>
    simp only [step] at taken
    split at taken
    · cases taken
    · cases kind with
      | and => cases taken; rfl
      | or => cases taken; rfl
      | mult =>
        simp only at taken
        split at taken <;> cases taken
        rfl
      | _ =>
        simp only at taken
        split at taken
        · cases taken
        · exact generic taken
  | binary kind a b => cases kind <;> cases taken <;> rfl
  | flag kind a b =>
    simp only [step] at taken
    split at taken
    · exact generic taken
    · cases taken
  | concat parts =>
    simp only [step] at taken
    split at taken
    · cases taken
    · rename_i p _
      split at taken
      · cases p <;> cases taken
      · split at taken
        · cases taken
        · rename_i built
          cases taken
          unfold getICBvConcat at built
          split at built <;> cases built <;> rfl
  | signExtend amount a =>
    simp only [step] at taken
    split at taken
    · cases taken
    · rename_i built
      obtain ⟨scl, _, rfl⟩ := Option.map_eq_some_iff.mp built
      cases taken
      rfl
  | _ => cases taken

/-- Along the whole path, by induction on it. -/
theorem solveFrom_equiv (slv : Nat) (bound : Nat → Nat) (var : Variable) (v : Valuation)
    : ∀ (path : List Nat) {n : Nat} (sv_t t : Term n) (r : Term var.width) (witnesses : List Witness),
      leadsTo var sv_t path → pathAllowed sv_t path = true →
      Inverter.solveFrom { slv, bound, rewriter := none, query := false } var path true .equal sv_t t [] = .solved r witnesses →
      witnesses = [] ∧ (sv_t.eval v = t.eval v ↔ var.term.eval v = r.eval v)
  | [], n, sv_t, t, r, witnesses, leads, _, solved => by
    obtain ⟨width, rfl⟩ := eq_of_isVariable leads
    subst width
    rw [Inverter.solveFrom, Inverter.solveVariableLit, dif_pos rfl] at solved
    obtain ⟨rfl, rfl⟩ := Outcome.solved.inj solved
    exact ⟨rfl, Iff.rfl⟩
  | index :: path, n, sv_t, t, r, witnesses, ⟨named, at_index, leads⟩, allowed, solved => by
    have children := Bool.and_eq_true_iff.mp allowed
    rw [at_index] at children
    rw [Inverter.solveFrom] at solved
    cases taken : step slv true .equal index sv_t t with
    | null => rw [taken] at solved; cases solved
    | illSorted => rw [taken] at solved; cases solved
    | inverted child t' =>
      rw [taken] at solved
      obtain rfl := step_next at_index (congrArg Step.next taken)
      obtain ⟨none, equiv⟩ := solveFrom_equiv slv bound var v path child t' r witnesses leads children.2 solved
      exact ⟨none, (step_equal_inverted taken (by simpa using children.1) v).trans equiv⟩
    | condition child ic =>
      -- without a query no witness term is made
      simp [taken, Inverter.getInversionNode, step_condition_unsolved taken] at solved

/-- The path from a relation goes through one of its sides. -/
theorem pathFromRelation_leadsTo {pv : Variable} {a b : Term n} {path : List Nat}
    (found : pathFromRelation pv a b = some path)
    : ∃ p rest, path = p :: rest ∧ leadsTo pv (if p = 0 then a else b) rest := by
  obtain ⟨visited, searched⟩ : ∃ visited,
      orElse 0 (getPathToPv pv a []) (fun visited => orElse 1 (getPathToPv pv b visited) noPath) = (some path, visited) :=
    ⟨_, Prod.ext found rfl⟩
  rcases orElse_some searched with ⟨inner, _, left, rfl⟩ | ⟨_, later⟩
  · exact ⟨0, inner, rfl, getPathToPv_leadsTo pv a left⟩
  · rcases orElse_some later with ⟨inner, _, right, rfl⟩ | ⟨_, last⟩
    · exact ⟨1, inner, rfl, getPathToPv_leadsTo pv b right⟩
    · exact absurd last noPath_some

/-- A solved equality is equivalent to the equality of the variable with the solution, and needs no witness terms. -/
theorem getBvInvertSolve_equiv (slv : Nat) (var : Variable) (a b : Term n) (r : Term var.width)
    (witnesses : List Witness) (solved : getBvInvertSolve slv var a b = .solved r witnesses) (v : Valuation)
    : witnesses = []
      ∧ ((Formula.rel .equal a b).eval v = true ↔ (Formula.rel .equal var.term r).eval v = true) := by
  unfold getBvInvertSolve at solved
  split at solved
  · cases solved
  · cases solved
  · rename_i p path found
    obtain ⟨_, _, same, leads⟩ := pathFromRelation_leadsTo found
    obtain ⟨rfl, rfl⟩ := List.cons.inj same
    by_cases allowed : pathAllowed (if p = 0 then a else b) path = true
    · rw [if_pos allowed] at solved
      obtain ⟨none, equiv⟩ := solveFrom_equiv slv id var v path _ _ r witnesses leads allowed solved
      refine ⟨none, ?_⟩
      simp only [Formula.eval, Relation.holds, beq_iff_eq]
      rw [← equiv]
      split
      · exact Iff.rfl
      · exact eq_comm
    · rw [if_neg allowed] at solved
      cases solved

/-- `(= (bvadd x x) y)` gives `(= x (bvsub y x))`. -/
theorem getBvInvertSolve_repeated
    : getBvInvertSolve 2 ⟨8, by decide, 0⟩ (mkNary .add (.var (show 0 < 8 by decide) 0) (.var (by decide) 0))
          (.var (by decide) 1)
        = .solved (.binary .sub (.var (by decide) 1) (.var (by decide) 0)) []
      ∧ ((Formula.rel .equal (mkNary .add (.var (show 0 < 8 by decide) 0) (.var (by decide) 0)) (.var (by decide) 1)).eval
            (fun n name => BitVec.ofNat n name) = true
          ↔ (Formula.rel .equal (.var (show 0 < 8 by decide) 0)
              (.binary .sub (.var (by decide) 1) (.var (by decide) 0))).eval (fun n name => BitVec.ofNat n name) = true) :=
  ⟨rfl, (getBvInvertSolve_equiv 2 ⟨8, by decide, 0⟩ _ _ _ [] rfl _).2⟩

end Ava6.Quantifiers.BvInverter
