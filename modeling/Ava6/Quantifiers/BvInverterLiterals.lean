import Ava6.Quantifiers.BvInverterEqualities
import Ava6.Quantifiers.Invertibility

/-! Literals with at most one operator above the variable: the value of the term that the inverter returns satisfies the
literal whenever some value does, unless the operator is one that only equalities invert.
-/

namespace Ava6.Quantifiers.BvInverter

open Ava6.Bv Ava6.Library.BitVecOrder

variable {n w : Nat}

-- Solutions

/-- The witness term denotes a value that satisfies its body. -/
def Witness.Denotes (slv : Nat) (v : Valuation) (w : Witness) : Prop :=
  w.cond.eval (v.update ⟨w.x.width, w.x.positive, slv⟩ (v w.x.width w.x.name)) = true

/-- The outcome is a solution of the property of the valuation: if the property holds for some value of the variable, then
it does for the one of the returned term. -/
def Outcome.Solves (slv : Nat) (sv : Variable) (property : Valuation → Prop) : Outcome sv.width → Prop
  | .null => True
  | .illSorted => False
  | .solved r witnesses =>
      ∀ v : Valuation, (∀ w ∈ witnesses, w.Denotes slv v) → (∃ value, property (v.update sv value)) →
        property (v.update sv (r.eval v))

/-- The literal of the loop. -/
def LiteralHolds (pol : Bool) (litk : LitKind) (sv_t t : Term n) (v : Valuation) : Prop :=
  litk.relation.holds (sv_t.eval v) (t.eval v) = pol

/-- The conditions that the rewriter gets, those of an operator and those of the variable, for literals in which the solve
variable does not occur. -/
inductive Inverter.Asks (inv : Inverter) : Variable → Formula → Prop
  | operator {n k : Nat} {pol : Bool} {litk : LitKind} {index : Nat} {sv_t t : Term n} {child : Term k} {ic : Formula}
      (built : step inv.slv pol litk index sv_t t = .condition child ic)
      (fresh : sv_t.occurrences (inv.solveVariable k child.positive) = 0
        ∧ t.occurrences (inv.solveVariable k child.positive) = 0)
    : Inverter.Asks inv (inv.solveVariable k child.positive) ic
  | leaf {n : Nat} {positive : 0 < n} {pol : Bool} {litk : LitKind} {t : Term n} {ic : Formula}
      (built : variableIC pol litk (inv.solveVariable n positive).term t = some ic)
      (fresh : t.occurrences (inv.solveVariable n positive) = 0)
    : Inverter.Asks inv (inv.solveVariable n positive) ic

/-- What is assumed of the rewriter, if there is one: it keeps the meaning of conditions, and an equality for the solve
variable that it returns is solved, the variable is on one side only. -/
structure Inverter.Faithful (inv : Inverter) : Prop where
  meaning : ∀ rewrite, inv.rewriter = some rewrite → ∀ cond v, (rewrite cond).eval v = cond.eval v
  solved : ∀ rewrite, inv.rewriter = some rewrite → ∀ slv cond c, inv.Asks slv cond →
    solvedForm slv (rewrite cond) = some c → c.occurrences slv = 0

/-- A solved condition holds at the solution. -/
theorem eval_solvedForm {slv : Variable} {cond : Formula} {c : Term slv.width} (solved : solvedForm slv cond = some c)
    (absent : c.occurrences slv = 0) (v : Valuation)
    : cond.eval (v.update slv (c.eval v)) = true := by
  unfold solvedForm at solved
  split at solved
  · rename_i m a b
    split at solved
    · rename_i width
      subst width
      split at solved
      · rename_i left
        obtain ⟨_, rfl⟩ := eq_of_isVariable left
        obtain rfl : b = c := Option.some.inj solved
        simp [Term.eval_update v slv _ b absent, Term.cast]
      · split at solved
        · rename_i right
          obtain ⟨_, rfl⟩ := eq_of_isVariable right
          obtain rfl : a = c := Option.some.inj solved
          simp [Term.eval_update v slv _ a absent, Term.cast]
        · cases solved
    · cases solved
  · cases solved

/-- A condition that only solutions of the property satisfy gives a solution, a term or a witness term. -/
theorem inversion_solves {inv : Inverter} (faithful : inv.Faithful) (sv : Variable) {ic : Formula}
    (asks : inv.Asks (inv.solveVariable sv.width sv.positive) ic)
    (unsolved : solvedForm (inv.solveVariable sv.width sv.positive) ic = none)
    {property : Valuation → Prop} {r : Term sv.width} {witnesses : List Witness}
    (built : inv.getInversionNode ic sv.width sv.positive [] = some (r, witnesses))
    (condition : ∀ (v : Valuation) (u : BitVec sv.width), (∃ value, property (v.update sv value)) →
      ic.eval (v.update (inv.solveVariable sv.width sv.positive) u) = true → property (v.update sv u))
    : Outcome.Solves inv.slv sv property (.solved r witnesses) := by
  intro v denotes solvable
  apply condition v (r.eval v) solvable
  have meaning (w : Valuation) : ((inv.rewriter.getD id) ic).eval w = ic.eval w := by
    cases rewriter : inv.rewriter with
    | none => rfl
    | some rewrite => exact faithful.meaning rewrite rewriter ic w
  rw [← meaning]
  simp only [Inverter.getInversionNode] at built
  split at built
  · rename_i c solved
    obtain ⟨rfl, rfl⟩ := Prod.mk.inj (Option.some.inj built)
    refine eval_solvedForm solved ?_ v
    cases rewriter : inv.rewriter with
    | none =>
      rw [rewriter] at solved
      cases solved.symm.trans unsolved
    | some rewrite =>
      rw [rewriter] at solved
      exact faithful.solved rewrite rewriter _ ic _ asks solved
  · split at built
    · obtain ⟨rfl, rfl⟩ := Prod.mk.inj (Option.some.inj built)
      exact denotes _ (List.mem_singleton.mpr rfl)
    · cases built

/-- The condition of the variable holds for solutions only. -/
theorem eval_variableIC {pol : Bool} {litk : LitKind} {x t : Term n} {ic : Formula}
    (built : variableIC pol litk x t = some ic) {v : Valuation}
    (solvable : ∃ y : BitVec n, litk.relation.holds y (t.eval v) = pol) (holds : ic.eval v = true)
    : litk.relation.holds (x.eval v) (t.eval v) = pol := by
  have positive := t.positive
  cases litk <;> cases pol <;> cases built
  case equal.false => simpa [LitKind.relation] using holds
  case ult.true =>
    have bound := (exists_ult_iff _).mp solvable
    simp [getICBvUltUgt, bound, LitKind.relation] at holds ⊢
    exact holds
  case ugt.true =>
    have bound := (exists_ugt_iff _).mp solvable
    simp [getICBvUltUgt, bound, LitKind.relation] at holds ⊢
    exact holds
  case slt.true =>
    have bound := (exists_slt_iff positive _).mp solvable
    simp [getICBvSltSgt, bound.symm, LitKind.relation] at holds ⊢
    exact holds
  case sgt.true =>
    have bound := (exists_sgt_iff positive _).mp solvable
    simp [getICBvSltSgt, bound, LitKind.relation] at holds ⊢
    exact holds
  all_goals simpa [getICBvUltUgt, getICBvSltSgt] using holds

/-- At the end of the path the literal is solved, if the solutions of the literal for the variable are some of those of
the property. -/
theorem solveVariableLit_solves {inv : Inverter} (faithful : inv.Faithful) (sv : Variable) {pol : Bool} {litk : LitKind}
    {t : Term sv.width} (fresh : t.occurrences (inv.solveVariable sv.width sv.positive) = 0)
    {property : Valuation → Prop}
    (solvable : ∀ v, (∃ value, property (v.update sv value)) → ∃ y, litk.relation.holds y (t.eval v) = pol)
    (implied : ∀ v u, (∃ value, property (v.update sv value)) → litk.relation.holds u (t.eval v) = pol →
      property (v.update sv u))
    : (inv.solveVariableLit sv pol litk t []).Solves inv.slv sv property := by
  unfold Inverter.solveVariableLit
  rw [dif_pos rfl]
  split
  · rename_i none
    intro v _ hasSolution
    apply implied v _ hasSolution
    cases litk <;> cases pol <;> first | exact beq_self_eq_true _ | cases none
  · rename_i ic built
    split
    · trivial
    · rename_i c witnesses inverted
      refine inversion_solves faithful sv (.leaf built fresh) (variableIC_unsolved built _) inverted ?_
      intro v u hasSolution holds
      have same := Term.eval_update v (inv.solveVariable sv.width sv.positive) u t fresh
      have value : (Term.var sv.positive inv.slv).eval (v.update (inv.solveVariable sv.width sv.positive) u) = u :=
        eval_update_term v (inv.solveVariable sv.width sv.positive) u
      change variableIC pol litk (.var sv.positive inv.slv) t = some ic at built
      have solves := eval_variableIC built (by rw [same]; exact solvable v hasSolution) holds
      rw [value, same] at solves
      exact implied v u hasSolution solves

-- Inverted operators

variable {m : Nat}

@[simp]
theorem occurrences_cast (x : Variable) (same : n = m) (a : Term n)
    : (a.cast same).occurrences x = a.occurrences x := by
  subst same
  rfl

@[simp]
theorem occurrences_mkExtract (x : Variable) (a : Term n) (high low : Nat) (inside : low ≤ high ∧ high < n)
    (width : high - low + 1 = m)
    : (mkExtract a high low inside width).occurrences x = a.occurrences x :=
  occurrences_cast x width _

theorem occurrences_naryNode (x : Variable) (k : NaryKind) (first : Term n) (rest : Args n)
    : (naryNode k first rest).occurrences x = first.occurrences x + rest.occurrences x := by
  cases rest <;> rfl

theorem occurrences_takeArg (x : Variable)
    : ∀ (as : Args n) (i : Nat) (taken : Term n × Args n), takeArg as i = some taken →
      as.occurrences x = taken.1.occurrences x + taken.2.occurrences x
  | .cons head tail, 0, _, rfl => rfl
  | .cons head tail, i + 1, taken, found => by
    obtain ⟨inner, innerFound, rfl⟩ := Option.map_eq_some_iff.mp found
    simp only [Args.occurrences, occurrences_takeArg x tail i inner innerFound]
    omega

theorem occurrences_dropChild (x : Variable) {k : NaryKind} {first : Term n} {rest : Args n} {index : Nat}
    {child s : Term n} (dropped : dropChild k first rest index = some (child, s))
    : (Term.nary k first rest).occurrences x = child.occurrences x + s.occurrences x := by
  cases index with
  | zero =>
    cases rest with
    | nil => cases dropped
    | cons head tail =>
      obtain ⟨rfl, rfl⟩ := Prod.mk.inj (Option.some.inj dropped)
      rw [occurrences_naryNode]
      rfl
  | succ i =>
    obtain ⟨taken, found, same⟩ := Option.map_eq_some_iff.mp dropped
    obtain ⟨rfl, rfl⟩ := Prod.mk.inj same
    rw [occurrences_naryNode, Term.occurrences, occurrences_takeArg x rest i taken found]
    omega

@[simp]
theorem child_prepend (a : Term m) (p : Position n) : (p.prepend a).child = p.child := by
  cases p <;> rfl

/-- The occurrences in a concatenation are those in the child and those in the other children. -/
theorem occurrences_replace (x : Variable) (value : (k : Nat) → BitVec k)
    : ∀ {n : Nat} (parts : Parts n) (index : Nat) (p : Position n), position parts index = some p →
      p.child.2.occurrences x + (replace (fun _ positive => .const positive (value _)) parts index).occurrences x
        = parts.occurrences x
  | _, .single a, 0, p, found => by
    obtain rfl := Option.some.inj found
    rfl
  | _, .cons a rest, 0, p, found => by
    obtain rfl := Option.some.inj found
    simp [replace, Parts.occurrences, Term.occurrences, Position.child]
  | _, .cons a rest, index + 1, p, found => by
    obtain ⟨inner, innerFound, rfl⟩ := Option.map_eq_some_iff.mp found
    have inside := occurrences_replace x value rest index inner innerFound
    rw [child_prepend, replace, Parts.occurrences, Parts.occurrences]
    omega

/-- The value of a concatenation is the one of each position. -/
theorem eval_position (v : Valuation) (value : (k : Nat) → BitVec k)
    : ∀ {n : Nat} (parts : Parts n) (index : Nat) (p : Position n), position parts index = some p →
      value p.child.1 = p.child.2.eval v → parts.eval v = p.value v value
  | _, .single a, 0, p, found, same => by
    obtain rfl := Option.some.inj found
    exact same.symm
  | _, .cons a rest, 0, p, found, same => by
    obtain rfl := Option.some.inj found
    exact congrArg (· ++ rest.eval v) same.symm
  | _, .cons a rest, index + 1, p, found, same => by
    obtain ⟨inner, innerFound, rfl⟩ := Option.map_eq_some_iff.mp found
    rw [child_prepend] at same
    rw [value_prepend, ← eval_position v value rest index inner innerFound same]
    rfl

theorem toNat_append_div (a : BitVec m) (b : BitVec n) : (a ++ b).toNat / 2 ^ n = a.toNat := by
  rw [toNat_append_eq, Nat.mul_comm, Nat.mul_add_div (Nat.two_pow_pos n), Nat.div_eq_of_lt b.isLt, Nat.add_zero]

theorem toNat_append_mod (a : BitVec m) (b : BitVec n) : (a ++ b).toNat % 2 ^ n = b.toNat := by
  rw [toNat_append_eq, Nat.add_comm, Nat.add_mul_mod_self_right, Nat.mod_eq_of_lt b.isLt]

variable {k : Nat}

/-- If the concatenation has the value of `t`, then the child has the one of the slice. -/
theorem concatSlice_spec {t : Term n} {p : Position n} {child t' : Term k}
    (taken : concatSlice t p = .inverted child t')
    : p.child = ⟨k, child⟩ ∧ (∀ x, t'.occurrences x = t.occurrences x)
      ∧ ∀ v value, p.value v value = t.eval v → value k = t'.eval v := by
  cases p with
  | whole child => cases taken
  | first width child s2 =>
    cases width
    cases taken
    refine ⟨rfl, fun x => by simp, fun v value same => BitVec.eq_of_toNat_eq ?_⟩
    rw [toNat_eval_mkExtract, ← same, Position.value, BitVec.toNat_cast, toNat_append_div,
      Nat.mod_eq_of_lt (value _).isLt]
  | last width s1 child =>
    cases width
    cases taken
    refine ⟨rfl, fun x => by simp, fun v value same => BitVec.eq_of_toNat_eq ?_⟩
    rw [toNat_eval_mkExtract, ← same, Position.value, BitVec.toNat_cast, Nat.pow_zero, Nat.div_one, toNat_append_mod]
  | middle width s1 child s2 =>
    cases width
    cases taken
    refine ⟨rfl, fun x => by simp, fun v value same => BitVec.eq_of_toNat_eq ?_⟩
    rw [toNat_eval_mkExtract, ← same, Position.value, BitVec.toNat_cast, BitVec.append_assoc', BitVec.toNat_cast,
      toNat_append_div, toNat_append_mod]

/-- An operator is inverted in equalities only, and the sides contain no more than before. -/
theorem step_inverted_occurrences {slv : Nat} {pol : Bool} {litk : LitKind} {index : Nat} {sv_t t : Term n}
    {child t' : Term k} (taken : step slv pol litk index sv_t t = .inverted child t')
    : litk = .equal
      ∧ ∀ x, child.occurrences x + t'.occurrences x ≤ sv_t.occurrences x + t.occurrences x := by
  have generic {m j : Nat} {y a : Term m} {s : Term j} : genericStep pol litk y a s ≠ .inverted child t' := by
    rcases genericStep_cases pol litk y a s with ⟨_, _, _, built⟩ | built | built <;> rw [built] <;> nofun
  cases sv_t with
  | unary kind a =>
    simp only [step] at taken
    split at taken
    · rename_i equal
      cases taken
      exact ⟨equal, fun x => Nat.le_refl _⟩
    · exact absurd taken generic
  | nary kind first rest =>
    simp only [step] at taken
    split at taken
    · cases taken
    · rename_i dropped s found
      have counts x := occurrences_dropChild x found
      cases kind with
      | and => cases taken
      | or => cases taken
      | mult =>
        simp only at taken
        split at taken
        · rename_i value odd
          split at odd
          · rename_i equal
            cases taken
            refine ⟨equal, fun x => ?_⟩
            rw [counts x]
            simp only [mkNary, Term.occurrences, Args.occurrences]
            omega
          · cases odd
        · cases taken
      | _ =>
        simp only at taken
        split at taken
        · rename_i equal
          cases taken
          refine ⟨equal, fun x => ?_⟩
          rw [counts x]
          simp only [mkNary, Term.occurrences, Args.occurrences]
          omega
        · exact absurd taken generic
  | binary kind a b => cases kind <;> cases taken
  | flag kind a b =>
    simp only [step] at taken
    split at taken
    · exact absurd taken generic
    · cases taken
  | concat parts =>
    simp only [step] at taken
    split at taken
    · cases taken
    · rename_i p placed
      split at taken
      · rename_i equal
        obtain ⟨isChild, counts, _⟩ := concatSlice_spec taken
        refine ⟨equal, fun x => ?_⟩
        have inside := occurrences_replace x (fun k => 0#k) parts index p placed
        rw [isChild] at inside
        rw [counts x]
        exact Nat.add_le_add_right (Nat.le.intro inside) _
      · split at taken <;> cases taken
  | signExtend amount a =>
    simp only [step] at taken
    split at taken <;> cases taken
  | _ => cases taken

/-- The equality implies the one for the child. -/
theorem step_inverted_forward {slv : Nat} {pol : Bool} {index : Nat} {sv_t t : Term n} {child t' : Term k}
    (taken : step slv pol .equal index sv_t t = .inverted child t') (v : Valuation) (same : sv_t.eval v = t.eval v)
    : child.eval v = t'.eval v := by
  cases sv_t with
  | concat parts =>
    simp only [step] at taken
    split at taken
    · cases taken
    · rename_i p placed
      obtain ⟨isChild, _, slice⟩ := concatSlice_spec taken
      let value (m : Nat) : BitVec m := if width : k = m then (child.eval v).cast width else 0#m
      have atChild : value k = child.eval v := by simp [value]
      have whole := eval_position v value parts index p placed (by rw [isChild]; exact atChild)
      rw [← atChild]
      exact slice v value (whole.symm.trans same)
  | _ => exact (step_equal_inverted taken rfl v).mp same

-- Conditions

/-- The kinds that can be above the variable. -/
inductive Operator
  | unary (k : UnaryKind)
  | nary (k : NaryKind)
  | binary (k : OpKind)
  | comp
  | concat
  | signExtend (amount : Nat)
  deriving DecidableEq

def operatorOf : {n : Nat} → Term n → Option Operator
  | _, .unary k _ => some (.unary k)
  | _, .nary k _ _ => some (.nary k)
  | _, .binary k _ _ => (opKind k).map .binary
  | _, .flag .comp _ _ => some .comp
  | _, .concat _ => some .concat
  | _, .signExtend amount _ => some (.signExtend amount)
  | _, _ => none

/-- Complement, negation, sum, exclusive or and comparison are inverted in equalities only. The condition for another literal
ignores them: right for none but the negation of one bit, and of the wrong width for the comparison. Sign extension by
no bits asks for a vector of no bits in three of the signed literals. -/
def Handled (width : Nat) (pol : Bool) (litk : LitKind) : Operator → Prop
  | .unary .not | .nary .add | .nary .xor => litk = .equal
  | .unary .neg => litk = .equal ∨ width = 1
  | .comp => litk = .equal ∧ pol = true
  | .signExtend amount =>
      amount ≠ 0 ∨ litk = .equal ∨ litk = .ult ∨ litk = .ugt ∨ (litk = .slt ∧ pol = true)
  | .nary .and | .nary .or | .nary .mult | .binary _ | .concat => True

/-- The condition is satisfied by solutions of the literal only. -/
def Solving (slv : Nat) (sv : Variable) (property : Valuation → Prop) (ic : Formula) : Prop :=
  ∀ (v : Valuation) (u : BitVec sv.width), (∃ value, property (v.update sv value)) →
    ic.eval (v.update ⟨sv.width, sv.positive, slv⟩ u) = true → property (v.update sv u)

section Conditions
variable {slv : Nat} {pol : Bool} {litk : LitKind} {ic : Formula}

/-- An implication whose premise is the solvability and whose conclusion is the literal. -/
theorem solves_of_implies {premise conclusion : Prop} {scl scr : Formula} {w : Valuation}
    (premiseIff : scl.eval w = true ↔ premise) (conclusionIff : scr.eval w = true ↔ conclusion) (solvable : premise)
    (holds : (Formula.implies scl scr).eval w = true)
    : conclusion := by
  have implied : scl.eval w = true → scr.eval w = true := by simpa [imp_iff_not_or] using holds
  exact conclusionIff.mp (implied (premiseIff.mpr solvable))

variable {name : Nat} {sv_t t : Term n}

/-- The condition of an operator with one other operand. -/
theorem operator_solving {positive : 0 < n} {s : Term n} (k : OpKind) (idx : Nat) {side : Nat}
    (value : ∀ v, sv_t.eval v = k.result idx (s.eval v) (v n name))
    (sides : ∀ a b : BitVec n, k.result side a b = k.result idx a b)
    (exactly : ∀ v, ∃ scl, ic = .implies scl (literal pol litk k side (.var positive slv) s t)
      ∧ (scl.eval v = true ↔ Solvable pol litk k idx (s.eval v) (t.eval v)))
    (absent : s.occurrences ⟨n, positive, name⟩ = 0 ∧ t.occurrences ⟨n, positive, name⟩ = 0)
    (fresh : s.occurrences ⟨n, positive, slv⟩ = 0 ∧ t.occurrences ⟨n, positive, slv⟩ = 0)
    : Solving slv ⟨n, positive, name⟩ (LiteralHolds pol litk sv_t t) ic := by
  intro v u solvable holds
  obtain ⟨scl, rfl, premise⟩ := exactly (v.update ⟨n, positive, slv⟩ u)
  have literalAt (y : BitVec n) : LiteralHolds pol litk sv_t t (v.update ⟨n, positive, name⟩ y)
      ↔ litk.relation.holds (k.result idx (s.eval v) y) (t.eval v) = pol := by
    have self := update_self v ⟨n, positive, name⟩ y
    rw [LiteralHolds, value, Term.eval_update v ⟨n, positive, name⟩ y s absent.1,
      Term.eval_update v ⟨n, positive, name⟩ y t absent.2]
    rw [show v.update ⟨n, positive, name⟩ y n name = y from self]
  rw [Term.eval_update v ⟨n, positive, slv⟩ u s fresh.1, Term.eval_update v ⟨n, positive, slv⟩ u t fresh.2] at premise
  refine solves_of_implies (premise.trans (exists_congr fun y => (literalAt y).symm)) ?_ solvable holds
  rw [eval_literal, Term.eval_update v ⟨n, positive, slv⟩ u s fresh.1,
    Term.eval_update v ⟨n, positive, slv⟩ u t fresh.2, sides, literalAt]
  rw [show (Term.var positive slv).eval (v.update ⟨n, positive, slv⟩ u) = u from eval_update_term v ⟨n, positive, slv⟩ u]

variable {index : Nat} {parts : Parts n} {p : Position n}

/-- The value at a position does not depend on a variable that does not occur in the other children. -/
theorem value_update (found : position parts index = some p)
    (x : Variable) (absent : parts.occurrences x = p.child.2.occurrences x) (v : Valuation) (u : BitVec x.width)
    (value : (k : Nat) → BitVec k)
    : p.value (v.update x u) value = p.value v value := by
  have others := occurrences_replace x value parts index p found
  rw [← eval_replace _ (fun _ positive => .const positive (value _)) value (fun _ _ => rfl) parts index p found,
    ← eval_replace _ (fun _ positive => .const positive (value _)) value (fun _ _ => rfl) parts index p found]
  exact Parts.eval_update v x u _ (by omega)

/-- The value at a position depends on the value of the child only. -/
theorem value_congr {v : Valuation} {x y : (k : Nat) → BitVec k} (same : x p.child.1 = y p.child.1)
    : p.value v x = p.value v y := by
  cases p with
  | whole child => exact same
  | first width child s2 => cases width; exact congrArg (fun a => (a ++ s2.eval v).cast rfl) same
  | last width s1 child => cases width; exact congrArg (fun a => (s1.eval v ++ a).cast rfl) same
  | middle width s1 child s2 =>
    cases width
    exact congrArg (fun a => (s1.eval v ++ (a ++ s2.eval v)).cast rfl) same

theorem position_lt : ∀ {n : Nat} (parts : Parts n) (index : Nat) (p : Position n), position parts index = some p →
    index < childCount parts
  | _, .single _, 0, _, _ => Nat.one_pos
  | _, .cons _ rest, 0, _, _ => Nat.succ_pos _
  | _, .cons _ rest, index + 1, _, found => by
    obtain ⟨inner, innerFound, _⟩ := Option.map_eq_some_iff.mp found
    exact Nat.succ_lt_succ (position_lt rest index inner innerFound)

theorem getICBvConcat_several {x : (k : Nat) → 0 < k → Term k}
    (built : getICBvConcat pol litk index x parts t = some ic)
    : 1 < childCount parts := by
  cases parts with
  | single a => cases index <;> cases built
  | cons a rest => cases rest <;> simp [childCount]

/-- The values of a width that are `y` at one of them. -/
def family (y : BitVec w) (k : Nat) : BitVec k := if width : w = k then y.cast width else 0#k

@[simp] theorem family_self (y : BitVec w) : family y w = y := by simp [family]

theorem eval_mkLiteral (v : Valuation) (scr t : Term n)
    : (mkLiteral pol litk scr t).eval v = true ↔ litk.relation.holds (scr.eval v) (t.eval v) = pol := by
  cases pol <;> simp [mkLiteral]

variable {positive : 0 < w}

theorem concat_solving
    (found : position parts index = some p) (isChild : p.child = ⟨w, .var positive name⟩)
    (built : getICBvConcat pol litk index (fun _ positive => .var positive slv) parts t = some ic)
    (absent : parts.occurrences ⟨w, positive, name⟩ = 1 ∧ t.occurrences ⟨w, positive, name⟩ = 0)
    (fresh : parts.occurrences ⟨w, positive, slv⟩ = 0 ∧ t.occurrences ⟨w, positive, slv⟩ = 0)
    : Solving slv ⟨w, positive, name⟩ (LiteralHolds pol litk (.concat parts) t) ic := by
  intro v u solvable holds
  obtain ⟨scl, scr, same, scrValue, premise⟩ := getICBvConcat_spec (v.update ⟨w, positive, slv⟩ u) pol litk index
    (fun _ positive => .var positive slv) parts t (position_lt parts index p found) (getICBvConcat_several built)
  obtain rfl := Option.some.inj (built.symm.trans same)
  have childOnce : p.child.2.occurrences ⟨w, positive, name⟩ = 1 := by
    rw [isChild]
    simp [Term.occurrences]
  have childFresh : p.child.2.occurrences ⟨w, positive, slv⟩ = 0 := by
    have counts := occurrences_replace ⟨w, positive, slv⟩ (fun k => 0#k) parts index p found
    omega
  have atSlv (value : (k : Nat) → BitVec k) : p.value (v.update ⟨w, positive, slv⟩ u) value = p.value v value :=
    value_update found _ (fresh.1.trans childFresh.symm) v u value
  have tAtSlv := Term.eval_update v ⟨w, positive, slv⟩ u t fresh.2
  have literalAt (y : BitVec w) : LiteralHolds pol litk (.concat parts) t (v.update ⟨w, positive, name⟩ y)
      ↔ litk.relation.holds (p.value v (family y)) (t.eval v) = pol := by
    have whole := eval_position (v.update ⟨w, positive, name⟩ y) (family y) parts index p found
      (by rw [isChild, family_self]; exact (update_self v ⟨w, positive, name⟩ y).symm)
    rw [value_update found _ (absent.1.trans childOnce.symm)] at whole
    rw [LiteralHolds, Term.eval, whole, Term.eval_update v ⟨w, positive, name⟩ y t absent.2]
  have solutions : ConcatSolvable (v.update ⟨w, positive, slv⟩ u) pol litk index parts t
      ↔ ∃ y, LiteralHolds pol litk (.concat parts) t (v.update ⟨w, positive, name⟩ y) := by
    have replaced (x : (k : Nat) → BitVec k)
        : (replace (fun k positive => .const positive (x k)) parts index).eval (v.update ⟨w, positive, slv⟩ u)
          = p.value v x := by
      rw [eval_replace _ _ x (fun _ _ => rfl) parts index p found, atSlv]
    simp only [ConcatSolvable, replaced, tAtSlv, literalAt]
    constructor
    · rintro ⟨x, holds⟩
      refine ⟨x w, ?_⟩
      rwa [value_congr (show family (x w) p.child.1 = x p.child.1 by rw [isChild, family_self])]
    · rintro ⟨y, holds⟩
      exact ⟨family y, holds⟩
  refine solves_of_implies (premise.trans solutions) ?_ solvable holds
  rw [eval_mkLiteral, scrValue, tAtSlv, literalAt,
    eval_replace _ _ (fun k => v.update ⟨w, positive, slv⟩ u k slv) (fun _ _ => rfl) parts index p found, atSlv,
    value_congr (show _ = family u p.child.1 by rw [isChild, family_self]; exact update_self v ⟨w, positive, slv⟩ u)]

theorem signExtend_solving {amount : Nat} {t : Term (w + amount)}
    (built : getICBvSext pol litk (.var positive slv) t = some ic)
    (absent : t.occurrences ⟨w, positive, name⟩ = 0) (fresh : t.occurrences ⟨w, positive, slv⟩ = 0)
    : Solving slv ⟨w, positive, name⟩ (LiteralHolds pol litk (.signExtend amount (.var positive name)) t) ic := by
  intro v u solvable holds
  obtain ⟨scl, rfl, premise⟩ := getICBvSext_spec (v.update ⟨w, positive, slv⟩ u) built
  have literalAt (y : BitVec w)
      : LiteralHolds pol litk (.signExtend amount (.var positive name)) t (v.update ⟨w, positive, name⟩ y)
        ↔ litk.relation.holds (y.signExtend (w + amount)) (t.eval v) = pol := by
    have value : (Term.signExtend amount (.var positive name)).eval (v.update ⟨w, positive, name⟩ y)
        = y.signExtend (w + amount) :=
      congrArg (BitVec.signExtend (w + amount)) (update_self v ⟨w, positive, name⟩ y)
    rw [LiteralHolds, value, Term.eval_update v ⟨w, positive, name⟩ y t absent]
  rw [Term.eval_update v ⟨w, positive, slv⟩ u t fresh] at premise
  refine solves_of_implies (premise.trans (exists_congr fun y => (literalAt y).symm)) ?_ solvable holds
  have value : (mkSignExtend (.var positive slv) amount).eval (v.update ⟨w, positive, slv⟩ u)
      = u.signExtend (w + amount) :=
    congrArg (BitVec.signExtend (w + amount)) (update_self v ⟨w, positive, slv⟩ u)
  rw [eval_mkLiteral, value, Term.eval_update v ⟨w, positive, slv⟩ u t fresh, literalAt]

/-- The condition of the variable, for an operator that does nothing. -/
theorem identity_solving {positive : 0 < n}
    (value : ∀ v, sv_t.eval v = v n name)
    (built : variableIC pol litk (.var positive slv) t = some ic)
    (absent : t.occurrences ⟨n, positive, name⟩ = 0) (fresh : t.occurrences ⟨n, positive, slv⟩ = 0)
    : Solving slv ⟨n, positive, name⟩ (LiteralHolds pol litk sv_t t) ic := by
  intro v u solvable holds
  have literalAt (y : BitVec n) : LiteralHolds pol litk sv_t t (v.update ⟨n, positive, name⟩ y)
      ↔ litk.relation.holds y (t.eval v) = pol := by
    rw [LiteralHolds, value, Term.eval_update v ⟨n, positive, name⟩ y t absent,
      show v.update ⟨n, positive, name⟩ y n name = y from update_self v ⟨n, positive, name⟩ y]
  rw [literalAt]
  have same := Term.eval_update v ⟨n, positive, slv⟩ u t fresh
  have solves := eval_variableIC built (by rw [same]; exact solvable.imp fun y => (literalAt y).mp) holds
  rwa [same, show (Term.var positive slv).eval (v.update ⟨n, positive, slv⟩ u) = u from
    update_self v ⟨n, positive, slv⟩ u] at solves

theorem neg_bit (a : BitVec 1) : -a = a := by
  rcases BitVec.eq_zero_or_eq_one a with rfl | rfl <;> rfl

theorem result_comm {k : OpKind} (commutative : k = .mult ∨ k = .and ∨ k = .or) (i j : Nat) (a b : BitVec n)
    : k.result i a b = k.result j a b := by
  have comm (x y : BitVec n) : k.apply x y = k.apply y x := by
    rcases commutative with rfl | rfl | rfl
    · exact BitVec.mul_comm x y
    · exact BitVec.and_comm x y
    · exact BitVec.or_comm x y
  unfold OpKind.result
  split <;> split <;> first | rfl | exact comm _ _

/-- The conditions of the operators with two operands are exact. -/
theorem binary_step {k : Nat} {kind : BinaryKind} {a b : Term n} {child : Term k}
    (taken : step slv pol litk index (.binary kind a b) t = .condition child ic)
    : ∃ op : OpKind,
        (∀ v, (Term.binary kind a b).eval v
          = op.result index ((if index = 0 then b else a).eval v) ((if index = 0 then a else b).eval v))
        ∧ ∀ v, ExactCondition v pol litk op index (.var (if index = 0 then a else b).positive slv)
            (if index = 0 then b else a) t ic := by
  have result (op : OpKind) (v : Valuation)
      : op.result index ((if index = 0 then b else a).eval v) ((if index = 0 then a else b).eval v)
        = op.apply (a.eval v) (b.eval v) := by
    unfold OpKind.result
    split <;> rfl
  cases kind with
  | shl => cases taken; exact ⟨.shl, fun v => (result .shl v).symm, fun v => shl_exact v ..⟩
  | lshr => cases taken; exact ⟨.lshr, fun v => (result .lshr v).symm, fun v => lshr_exact v ..⟩
  | ashr => cases taken; exact ⟨.ashr, fun v => (result .ashr v).symm, fun v => ashr_exact v ..⟩
  | urem => cases taken; exact ⟨.urem, fun v => (result .urem v).symm, fun v => urem_exact v ..⟩
  | udiv => cases taken; exact ⟨.udiv, fun v => (result .udiv v).symm, fun v => udiv_exact v ..⟩
  | xnor => cases taken
  | sub => cases taken

/-- The condition of every operator that is handled is satisfied by solutions only. -/
theorem step_condition_solving {k : Nat} {child : Term k} {op : Operator}
    (at_index : childAt sv_t index = some ⟨w, .var positive name⟩)
    (taken : step slv pol litk index sv_t t = .condition child ic)
    (isOp : operatorOf sv_t = some op) (handled : Handled w pol litk op)
    (absent : sv_t.occurrences ⟨w, positive, name⟩ = 1 ∧ t.occurrences ⟨w, positive, name⟩ = 0)
    (fresh : sv_t.occurrences ⟨w, positive, slv⟩ = 0 ∧ t.occurrences ⟨w, positive, slv⟩ = 0)
    : Solving slv ⟨w, positive, name⟩ (LiteralHolds pol litk sv_t t) ic := by
  cases sv_t with
  | unary kind a =>
    obtain rfl := Option.some.inj isOp
    obtain _ | i := index
    · cases Option.some.inj at_index
      simp only [step] at taken
      split at taken
      · cases taken
      · rename_i order
        cases kind with
        | not => exact absurd handled order
        | neg =>
          obtain rfl := handled.resolve_left order
          rcases genericStep_cases pol litk (.var positive slv) (.var positive name) t with
            ⟨_, inner, built, same⟩ | same | same <;> rw [same] at taken <;> cases taken
          refine identity_solving (fun v => ?_) built absent.2 fresh.2
          change -(v 1 name) = v 1 name
          exact neg_bit (v 1 name)
    · cases at_index
  | nary kind first rest =>
    obtain rfl := Option.some.inj isOp
    simp only [step] at taken
    split at taken
    · cases taken
    · rename_i dropped s found
      cases Option.some.inj ((dropChild_childAt found).symm.trans at_index)
      have counts x := occurrences_dropChild x found
      have others : s.occurrences ⟨n, positive, name⟩ = 0 ∧ s.occurrences ⟨n, positive, slv⟩ = 0 := by
        have once : (Term.var positive name).occurrences ⟨n, positive, name⟩ = 1 := by simp [Term.occurrences]
        have total := counts ⟨n, positive, name⟩
        have totalSlv := counts ⟨n, positive, slv⟩
        omega
      have value (v : Valuation) := eval_dropChild v found
      cases kind with
      | add =>
        obtain rfl : litk = .equal := handled
        cases taken
      | xor =>
        obtain rfl : litk = .equal := handled
        cases taken
      | mult =>
        simp only at taken
        split at taken <;> cases taken
        refine operator_solving .mult index (fun v => ?_) (fun _ _ => rfl)
          (fun v => mult_exact v pol litk index _ s t) ⟨others.1, absent.2⟩ ⟨others.2, fresh.2⟩
        rw [value, result_comm (Or.inl rfl) index 0]
        rfl
      | and =>
        cases taken
        refine operator_solving .and index (fun v => ?_) (result_comm (Or.inr (Or.inl rfl)) 0 index)
          (fun v => ⟨_, rfl, eval_sclBvAndOr v pol litk index s t (Or.inl rfl)⟩) ⟨others.1, absent.2⟩ ⟨others.2, fresh.2⟩
        rw [value, result_comm (Or.inr (Or.inl rfl)) index 0]
        rfl
      | or =>
        cases taken
        refine operator_solving .or index (fun v => ?_) (result_comm (Or.inr (Or.inr rfl)) 0 index)
          (fun v => ⟨_, rfl, eval_sclBvAndOr v pol litk index s t (Or.inr rfl)⟩) ⟨others.1, absent.2⟩ ⟨others.2, fresh.2⟩
        rw [value, result_comm (Or.inr (Or.inr rfl)) index 0]
        rfl
  | binary kind a b =>
    obtain ⟨op, value, exactly⟩ := binary_step taken
    obtain _ | _ | i := index
    · cases Option.some.inj at_index
      have once : (Term.var positive name).occurrences ⟨n, positive, name⟩ = 1 := by simp [Term.occurrences]
      rw [Term.occurrences] at absent fresh
      exact operator_solving op 0 value (fun _ _ => rfl) exactly
        ⟨show b.occurrences _ = 0 by omega, absent.2⟩ ⟨show b.occurrences _ = 0 by omega, fresh.2⟩
    · cases Option.some.inj at_index
      have once : (Term.var positive name).occurrences ⟨n, positive, name⟩ = 1 := by simp [Term.occurrences]
      rw [Term.occurrences] at absent fresh
      exact operator_solving op 1 value (fun _ _ => rfl) exactly
        ⟨show a.occurrences _ = 0 by omega, absent.2⟩ ⟨show a.occurrences _ = 0 by omega, fresh.2⟩
    · cases at_index
  | flag kind a b =>
    cases kind with
    | comp =>
      obtain rfl := Option.some.inj isOp
      obtain ⟨rfl, rfl⟩ : litk = .equal ∧ pol = true := handled
      simp only [step, if_true] at taken
      rcases genericStep_cases true .equal (.var (if index = 0 then a else b).positive slv) (if index = 0 then a else b) t
        with ⟨_, _, built, _⟩ | same | same
      · cases built
      · rw [same] at taken
        cases taken
      · rw [same] at taken
        cases taken
    | _ => cases isOp
  | concat parts =>
    obtain ⟨p, placed, isChild⟩ := Option.map_eq_some_iff.mp at_index
    simp only [step, placed] at taken
    split at taken
    · cases p <;> cases taken
    · split at taken
      · cases taken
      · rename_i built
        cases taken
        exact concat_solving placed isChild built absent fresh
  | signExtend amount a =>
    obtain _ | i := index
    · cases Option.some.inj at_index
      simp only [step] at taken
      split at taken
      · cases taken
      · rename_i built
        cases taken
        exact signExtend_solving built absent.2 fresh.2
    · cases at_index
  | _ => cases taken

end Conditions

end Ava6.Quantifiers.BvInverter
