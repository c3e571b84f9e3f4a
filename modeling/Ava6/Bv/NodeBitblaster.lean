import Ava6.Bv.Bitblast.Strategies

/-! The bit-blaster over whole terms and atoms. The bits of a term are a function of the term:
the cache of the source only returns what it has computed for the same node before.
-/

namespace Ava6.Bv.NodeBitblaster

open Ava6.Library.BitList
open Ava6.Bv.Bitblast

mutual
/-- The bits of a term, least significant first. -/
def bbTerm : {n : Nat} → Term n → Bits
  | n, .var _ name => makeVariable n name
  | _, .const _ value => constBB value
  | n, .unary k a => unaryBB k (bbTerm a) n
  | n, .binary k a b => binaryBB k (bbTerm a) (bbTerm b) n
  | _, .nary k first rest => bbArgs k rest (bbTerm first)
  | _, .flag k a b => [flagBB k (bbTerm a) (bbTerm b)]
  | _, .ite cond thenpart elsepart =>
      defaultIteBB ((bbTerm cond).getD 0 mkFalse) (bbTerm thenpart) (bbTerm elsepart)
  | _, .concat parts => bbParts parts
  | _, .extract high low _ a => defaultExtractBB high low (bbTerm a)
  | _, .signExtend amount a => defaultSignExtendBB amount (bbTerm a)

/-- The loop over the further children of an n-ary node. -/
def bbArgs : {n : Nat} → NaryKind → Args n → Bits → Bits
  | _, _, .nil, res => res
  | _, k, .cons head tail, res => bbArgs k tail (naryBB k res (bbTerm head))

/-- The loop over the children of a concatenation, from the last one on. -/
def bbParts : {n : Nat} → Parts n → Bits
  | _, .single a => bbTerm a
  | _, .cons a rest => bbParts rest ++ bbTerm a
end

mutual
/-- The bits denote the value of the term, by induction on the term. -/
theorem bbTerm_represents (v : Valuation)
    : {n : Nat} → (t : Term n) → Represents (values v (bbTerm t)) (t.eval v)
  | n, .var _ name => makeVariable_represents v n name
  | _, .const _ value => constBB_represents v value
  | _, .unary k a => unaryBB_represents v (bbTerm_represents v a) k
  | _, .binary k a b =>
      binaryBB_represents v (bbTerm_represents v a) (bbTerm_represents v b) a.positive k
  | _, .nary k first rest => bbArgs_represents v k rest (bbTerm_represents v first)
  | _, .flag k a b => by
      rw [bbTerm, Term.eval, values_cons, values_nil,
        eval_flagBB v (bbTerm_represents v a) (bbTerm_represents v b) a.positive]
      cases k.apply (a.eval v) (b.eval v) <;> exact ⟨rfl, rfl⟩
  | _, .ite cond thenpart elsepart =>
      defaultIteBB_represents v (bbTerm_represents v thenpart) (bbTerm_represents v elsepart)
        (by rw [← getD_values, (bbTerm_represents v cond).getD])
  | _, .concat parts => bbParts_represents v parts
  | _, .extract _ _ _ a => defaultExtractBB_represents v (bbTerm_represents v a)
  | _, .signExtend amount a => defaultSignExtendBB_represents v (bbTerm_represents v a) amount

theorem bbArgs_represents (v : Valuation)
    : {n : Nat} → (k : NaryKind) → (rest : Args n) → {res : Bits} → {x : BitVec n}
      → Represents (values v res) x → Represents (values v (bbArgs k rest res)) (rest.eval v k x)
  | _, _, .nil, _, _, represents => represents
  | _, k, .cons head tail, _, _, represents =>
      bbArgs_represents v k tail (naryBB_represents v represents (bbTerm_represents v head) k)

theorem bbParts_represents (v : Valuation)
    : {n : Nat} → (parts : Parts n) → Represents (values v (bbParts parts)) (parts.eval v)
  | _, .single a => bbTerm_represents v a
  | _, .cons a rest => append_represents v (bbTerm_represents v a) (bbParts_represents v rest)
end

/-- The strategy of an atom; the other relations have none and are rewritten before. -/
def bbAtomStrategy (rel : Relation) (a b : Bits) : Option Gate :=
  match rel with
  | .equal => some (eqBB a b)
  | .ult => some (uLessThanBB a b false)
  | .ule => some (uLessThanBB a b true)
  | .slt => some (sLessThanBB a b false)
  | .sle => some (sLessThanBB a b true)
  | .distinct | .ugt | .uge | .sgt | .sge => none

/-- Relations with a strategy. -/
def hasAtomStrategy (rel : Relation) : Bool :=
  match rel with
  | .equal | .ult | .ule | .slt | .sle => true
  | .distinct | .ugt | .uge | .sgt | .sge => false

/-- The formula of an atom, where there is one, is true exactly when the atom is. -/
theorem eval_bbAtomStrategy (v : Valuation) {n : Nat} (rel : Relation) (a b : Term n)
    : (bbAtomStrategy rel (bbTerm a) (bbTerm b)).map (·.eval v)
      = if hasAtomStrategy rel then some (rel.holds (a.eval v) (b.eval v)) else none := by
  have left := bbTerm_represents v a
  have right := bbTerm_represents v b
  have aLength : (bbTerm a).length = n := by simpa using left.length
  have bLength : (bbTerm b).length = n := by simpa using right.length
  have positive := a.positive
  have unsigned := eval_uLessThanBB v (a := bbTerm a) (b := bbTerm b) (by omega) (by omega)
  simp only [left.toNat, right.toNat, compares] at unsigned
  have signed := eval_sLessThanBB v positive left right
  cases rel with
  | equal => exact congrArg some (eval_eqBB v left right)
  | ult =>
    refine congrArg some (Bool.eq_iff_iff.mpr ((unsigned false).trans ?_))
    simp [Relation.holds, BitVec.ult]
  | ule =>
    refine congrArg some (Bool.eq_iff_iff.mpr ((unsigned true).trans ?_))
    simp [Relation.holds, BitVec.ule]
  | slt => exact congrArg some (Bool.eq_iff_iff.mpr (signed false))
  | sle => exact congrArg some (Bool.eq_iff_iff.mpr (signed true))
  | distinct | ugt | uge | sgt | sge => rfl

/-- A node in the form `bbAtom` distinguishes after rewriting. -/
inductive Atom
  | const (value : Bool)
  | bit (width name i : Nat)
  | relation {n : Nat} (rel : Relation) (a b : Term n)

def Atom.holds (v : Valuation) : Atom → Bool
  | .const value => value
  | .bit width name i => (v width name).getLsbD i
  | .relation rel a b => rel.holds (a.eval v) (b.eval v)

/-- The theory rewriter, of which the bit-blaster uses that it keeps the meaning of a node. -/
structure Rewriter where
  rewriteAtom : Atom → Atom
  rewriteGate : Gate → Gate
  holds_rewriteAtom : ∀ v atom, (rewriteAtom atom).holds v = atom.holds v
  eval_rewriteGate : ∀ v gate, (rewriteGate gate).eval v = gate.eval v

/-- The larger relations have no strategy, and are the smaller ones with the sides exchanged. -/
def eliminateGreater : Atom → Atom
  | .relation .ugt a b => .relation .ult b a
  | .relation .uge a b => .relation .ule b a
  | .relation .sgt a b => .relation .slt b a
  | .relation .sge a b => .relation .sle b a
  | atom => atom

instance : Inhabited Rewriter where
  default :=
    { rewriteAtom := eliminateGreater
      rewriteGate := id
      holds_rewriteAtom := fun v atom => by
        cases atom with
        | const value | bit width name i => rfl
        | relation rel a b => cases rel <;> rfl
      eval_rewriteGate := fun _ _ => rfl }

/-- The formula of a rewritten atom; constants and bits are formulas already. -/
def bbNormalized : Atom → Option Gate
  | .const value => some (.const value)
  | .bit width name i => some (.bit width name i)
  | .relation rel a b => bbAtomStrategy rel (bbTerm a) (bbTerm b)

def Atom.hasStrategy : Atom → Bool
  | .const _ | .bit _ _ _ => true
  | .relation rel _ _ => hasAtomStrategy rel

/-- The formula stored for an atom. -/
def bbAtom (r : Rewriter) (atom : Atom) : Option Gate :=
  (bbNormalized (r.rewriteAtom atom)).map r.rewriteGate

theorem eval_bbNormalized (v : Valuation) (atom : Atom)
    : (bbNormalized atom).map (·.eval v) = if atom.hasStrategy then some (atom.holds v) else none := by
  cases atom with
  | const value => rfl
  | bit width name i => rfl
  | relation rel a b => exact eval_bbAtomStrategy v rel a b

/-- The gate of an atom has its value, by the lemmas of the strategies. -/
theorem eval_bbAtom (v : Valuation) (r : Rewriter) (atom : Atom)
    : (bbAtom r atom).map (·.eval v)
      = if (r.rewriteAtom atom).hasStrategy then some (atom.holds v) else none := by
  have kept : (fun gate : Gate => (r.rewriteGate gate).eval v) = (·.eval v) :=
    funext (r.eval_rewriteGate v)
  rw [bbAtom, Option.map_map, Function.comp_def, kept, eval_bbNormalized, r.holds_rewriteAtom]

/-- The bits of every term denote its SMT-LIB value, the formula of every atom with a strategy
is true exactly when the atom is, and so is the formula stored for it after rewriting. -/
theorem bitblasting_exact (v : Valuation)
    : (∀ (n : Nat) (t : Term n),
        (bbTerm t).length = n ∧ value (values v (bbTerm t)) = (t.eval v).toNat)
      ∧ (∀ (n : Nat) (rel : Relation) (a b : Term n),
        (bbAtomStrategy rel (bbTerm a) (bbTerm b)).map (·.eval v)
          = if hasAtomStrategy rel then some (rel.holds (a.eval v) (b.eval v)) else none)
      ∧ ∀ (r : Rewriter) (atom : Atom),
        (bbAtom r atom).map (·.eval v)
          = if (r.rewriteAtom atom).hasStrategy then some (atom.holds v) else none := by
  refine ⟨fun n t => ?_, fun n rel a b => eval_bbAtomStrategy v rel a b, eval_bbAtom v⟩
  have represents := bbTerm_represents v t
  exact ⟨by simpa using represents.length, represents.toNat⟩

end Ava6.Bv.NodeBitblaster
