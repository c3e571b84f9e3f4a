import Ava6.Bv.Formula

/-! Variables of terms and formulas: how often one occurs, structural comparison of nodes of any widths, and the
valuation with one variable changed. A node without occurrences of a variable does not depend on it.
-/

namespace Ava6.Bv

mutual
/-- The nodes are the same one. -/
def Term.same : {m n : Nat} → Term m → Term n → Bool
  | m, n, .var _ name, .var _ other => m == n && name == other
  | m, n, .const _ value, .const _ other => m == n && value.toNat == other.toNat
  | _, _, .unary k a, .unary l b => k == l && a.same b
  | _, _, .binary k a b, .binary l c d => k == l && a.same c && b.same d
  | _, _, .nary k a as, .nary l b bs => k == l && a.same b && as.same bs
  | _, _, .flag k a b, .flag l c d => k == l && a.same c && b.same d
  | _, _, .ite c a b, .ite d e f => c.same d && a.same e && b.same f
  | _, _, .concat parts, .concat others => parts.same others
  | _, _, .extract high low _ a, .extract high' low' _ b => high == high' && low == low' && a.same b
  | _, _, .signExtend amount a, .signExtend amount' b => amount == amount' && a.same b
  | _, _, _, _ => false

def Args.same : {m n : Nat} → Args m → Args n → Bool
  | _, _, .nil, .nil => true
  | _, _, .cons a as, .cons b bs => a.same b && as.same bs
  | _, _, _, _ => false

def Parts.same : {m n : Nat} → Parts m → Parts n → Bool
  | _, _, .single a, .single b => a.same b
  | _, _, .cons a as, .cons b bs => a.same b && as.same bs
  | _, _, _, _ => false
end

/-- A variable: its width and its name. -/
structure Variable where
  width : Nat
  positive : 0 < width
  name : Nat

def Variable.term (x : Variable) : Term x.width := .var x.positive x.name

/-- The node is the variable. -/
def Term.isVariable (x : Variable) {n : Nat} : Term n → Bool
  | .var _ name => x.width == n && x.name == name
  | _ => false

theorem eq_of_isVariable {x : Variable} {n : Nat} {a : Term n} (same : a.isVariable x = true)
    : ∃ width : x.width = n, a = x.term.cast width := by
  cases a with
  | var positive name =>
    obtain ⟨width, sameName⟩ : x.width = n ∧ x.name = name := by simpa [Term.isVariable] using same
    obtain ⟨w, _, _⟩ := x
    obtain rfl : w = n := width
    exact ⟨rfl, by rw [Variable.term, ← sameName]; rfl⟩
  | _ => simp [Term.isVariable] at same

mutual
/-- The number of occurrences of a variable. -/
def Term.occurrences (x : Variable) : {n : Nat} → Term n → Nat
  | n, .var _ name => if x.width = n ∧ x.name = name then 1 else 0
  | _, .const _ _ => 0
  | _, .unary _ a => a.occurrences x
  | _, .binary _ a b => a.occurrences x + b.occurrences x
  | _, .nary _ first rest => first.occurrences x + rest.occurrences x
  | _, .flag _ a b => a.occurrences x + b.occurrences x
  | _, .ite cond thenpart elsepart => cond.occurrences x + thenpart.occurrences x + elsepart.occurrences x
  | _, .concat parts => parts.occurrences x
  | _, .extract _ _ _ a => a.occurrences x
  | _, .signExtend _ a => a.occurrences x

def Args.occurrences (x : Variable) : {n : Nat} → Args n → Nat
  | _, .nil => 0
  | _, .cons head tail => head.occurrences x + tail.occurrences x

def Parts.occurrences (x : Variable) : {n : Nat} → Parts n → Nat
  | _, .single a => a.occurrences x
  | _, .cons a rest => a.occurrences x + rest.occurrences x
end

mutual
def Formula.occurrences (x : Variable) : Formula → Nat
  | .const _ => 0
  | .rel _ a b => a.occurrences x + b.occurrences x
  | .not f => f.occurrences x
  | .and children => occurrencesAll x children
  | .or children => occurrencesAll x children
  | .implies premise conclusion => premise.occurrences x + conclusion.occurrences x

def occurrencesAll (x : Variable) : List Formula → Nat
  | [] => 0
  | f :: rest => f.occurrences x + occurrencesAll x rest
end

/-- The valuation with another value of one variable. -/
def Valuation.update (v : Valuation) (x : Variable) (value : BitVec x.width) : Valuation :=
  fun n name => if same : x.width = n ∧ x.name = name then value.cast same.1 else v n name

@[simp]
theorem update_self (v : Valuation) (x : Variable) (value : BitVec x.width)
    : v.update x value x.width x.name = value := by
  simp [Valuation.update]

@[simp]
theorem eval_update_term (v : Valuation) (x : Variable) (value : BitVec x.width)
    : x.term.eval (v.update x value) = value :=
  update_self v x value

mutual
/-- A node does not depend on a variable that does not occur in it, by induction on the node. -/
theorem Term.eval_update (v : Valuation) (x : Variable) (value : BitVec x.width)
    : {n : Nat} → (a : Term n) → a.occurrences x = 0 → a.eval (v.update x value) = a.eval v
  | n, .var _ name, absent => by
    have differs : ¬(x.width = n ∧ x.name = name) := by
      intro same
      simp [Term.occurrences, same] at absent
    simp [Term.eval, Valuation.update, differs]
  | _, .const _ _, _ => rfl
  | _, .unary k a, absent => by
    rw [Term.eval, Term.eval, Term.eval_update v x value a absent]
  | _, .binary k a b, absent => by
    obtain ⟨absentA, absentB⟩ := Nat.add_eq_zero_iff.mp absent
    rw [Term.eval, Term.eval, Term.eval_update v x value a absentA, Term.eval_update v x value b absentB]
  | _, .nary k first rest, absent => by
    obtain ⟨absentFirst, absentRest⟩ := Nat.add_eq_zero_iff.mp absent
    rw [Term.eval, Term.eval, Term.eval_update v x value first absentFirst, Args.eval_update v x value rest absentRest]
  | _, .flag k a b, absent => by
    obtain ⟨absentA, absentB⟩ := Nat.add_eq_zero_iff.mp absent
    rw [Term.eval, Term.eval, Term.eval_update v x value a absentA, Term.eval_update v x value b absentB]
  | _, .ite cond thenpart elsepart, absent => by
    obtain ⟨absentBoth, absentElse⟩ := Nat.add_eq_zero_iff.mp absent
    obtain ⟨absentCond, absentThen⟩ := Nat.add_eq_zero_iff.mp absentBoth
    rw [Term.eval, Term.eval, Term.eval_update v x value cond absentCond, Term.eval_update v x value thenpart absentThen,
      Term.eval_update v x value elsepart absentElse]
  | _, .concat parts, absent => by
    rw [Term.eval, Term.eval, Parts.eval_update v x value parts absent]
  | _, .extract high low inside a, absent => by
    rw [Term.eval, Term.eval, Term.eval_update v x value a absent]
  | _, .signExtend amount a, absent => by
    rw [Term.eval, Term.eval, Term.eval_update v x value a absent]

theorem Args.eval_update (v : Valuation) (x : Variable) (value : BitVec x.width)
    : {n : Nat} → (as : Args n) → as.occurrences x = 0 → as.eval (v.update x value) = as.eval v
  | _, .nil, _ => rfl
  | _, .cons head tail, absent => by
    obtain ⟨absentHead, absentTail⟩ := Nat.add_eq_zero_iff.mp absent
    funext k start
    rw [Args.eval, Args.eval, Term.eval_update v x value head absentHead, Args.eval_update v x value tail absentTail]

theorem Parts.eval_update (v : Valuation) (x : Variable) (value : BitVec x.width)
    : {n : Nat} → (parts : Parts n) → parts.occurrences x = 0 → parts.eval (v.update x value) = parts.eval v
  | _, .single a, absent => Term.eval_update v x value a absent
  | _, .cons a rest, absent => by
    obtain ⟨absentA, absentRest⟩ := Nat.add_eq_zero_iff.mp absent
    rw [Parts.eval, Parts.eval, Term.eval_update v x value a absentA, Parts.eval_update v x value rest absentRest]
end

end Ava6.Bv
