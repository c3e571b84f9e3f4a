import Ava6.Bv.Term

/-! Formulas over bit-vector terms and the node constructors of the bit-vector utilities.
Every constructor function keeps the name it has in the source and comes with the simp
lemma that says what the node it builds denotes.
-/

namespace Ava6.Bv

variable {w : Nat}

inductive Formula
  | const (value : Bool)
  | rel {n : Nat} (k : Relation) (a b : Term n)
  | not (f : Formula)
  | and (children : List Formula)
  | or (children : List Formula)
  | implies (premise conclusion : Formula)

mutual
def Formula.eval (v : Valuation) : Formula → Bool
  | .const value => value
  | .rel k a b => k.holds (a.eval v) (b.eval v)
  | .not f => !f.eval v
  | .and children => evalAll v children
  | .or children => evalAny v children
  | .implies premise conclusion => !premise.eval v || conclusion.eval v

def evalAll (v : Valuation) : List Formula → Bool
  | [] => true
  | f :: rest => f.eval v && evalAll v rest

def evalAny (v : Valuation) : List Formula → Bool
  | [] => false
  | f :: rest => f.eval v || evalAny v rest
end

attribute [simp] Formula.eval evalAll evalAny

/-- A disjunction holds when one of its children does, by induction on the children. -/
theorem evalAny_eq_true (v : Valuation) (children : List Formula)
    : evalAny v children = true ↔ ∃ f ∈ children, f.eval v = true := by
  induction children with
  | nil => simp
  | cons f rest ih => simp [ih]

def mkConst (size value : Nat) (positive : 0 < size) : Term size :=
  .const positive (BitVec.ofNat size value)

def mkZero (size : Nat) (positive : 0 < size) : Term size := mkConst size 0 positive

def mkOne (size : Nat) (positive : 0 < size) : Term size := mkConst size 1 positive

def mkOnes (size : Nat) (positive : 0 < size) : Term size :=
  .const positive (BitVec.allOnes size)

def mkMinSigned (size : Nat) (positive : 0 < size) : Term size :=
  .const positive (BitVec.twoPow size (size - 1))

def mkMaxSigned (size : Nat) (positive : 0 < size) : Term size :=
  .const positive (~~~BitVec.twoPow size (size - 1))

def mkNot (a : Term w) : Term w := .unary .not a

def mkNeg (a : Term w) : Term w := .unary .neg a

/-- An n-ary node with two children. -/
def mkNary (k : NaryKind) (a b : Term w) : Term w := .nary k a (.cons b .nil)

def mkDec (a : Term w) : Term w := .binary .sub a (mkOne w a.positive)

/-- A node at another writing of its width. -/
def Term.cast {n : Nat} (same : w = n) (a : Term w) : Term n := same ▸ a

def mkExtract (a : Term w) (high low : Nat) (inside : low ≤ high ∧ high < w) {n : Nat}
    (width : high - low + 1 = n) : Term n :=
  (Term.extract high low inside a).cast width

def mkConcat {n : Nat} (a : Term w) (b : Term n) : Term (w + n) := .concat (.cons a (.single b))

def mkSignExtend (a : Term w) (amount : Nat) : Term (w + amount) := .signExtend amount a

section Meaning
variable (v : Valuation) (positive : 0 < w) (a b : Term w)

@[simp]
theorem eval_mkConst (value : Nat) : (mkConst w value positive).eval v = BitVec.ofNat w value :=
  rfl

@[simp] theorem eval_mkZero : (mkZero w positive).eval v = 0#w := rfl

@[simp] theorem eval_mkOne : (mkOne w positive).eval v = 1#w := rfl

@[simp] theorem eval_mkOnes : (mkOnes w positive).eval v = BitVec.allOnes w := rfl

@[simp]
theorem eval_mkMinSigned : (mkMinSigned w positive).eval v = BitVec.twoPow w (w - 1) := rfl

@[simp]
theorem eval_mkMaxSigned : (mkMaxSigned w positive).eval v = ~~~BitVec.twoPow w (w - 1) := rfl

@[simp] theorem eval_mkNot : (mkNot a).eval v = ~~~a.eval v := rfl

@[simp] theorem eval_mkNeg : (mkNeg a).eval v = -a.eval v := rfl

@[simp]
theorem eval_mkNary (k : NaryKind) : (mkNary k a b).eval v = k.apply (a.eval v) (b.eval v) :=
  rfl

@[simp]
theorem eval_binary (k : BinaryKind)
    : (Term.binary k a b).eval v = k.apply (a.eval v) (b.eval v) :=
  rfl

@[simp] theorem eval_mkDec : (mkDec a).eval v = a.eval v - 1#w := rfl

@[simp]
theorem eval_cast {n : Nat} (same : w = n) : (a.cast same).eval v = (a.eval v).cast same := by
  subst same
  rfl

@[simp]
theorem toNat_eval_mkExtract (high low : Nat) (inside : low ≤ high ∧ high < w) {n : Nat}
    (width : high - low + 1 = n)
    : ((mkExtract a high low inside width).eval v).toNat = (a.eval v).toNat / 2 ^ low % 2 ^ n := by
  subst width
  rw [mkExtract, eval_cast, BitVec.toNat_cast]
  change ((a.eval v).extractLsb high low).toNat = _
  rw [BitVec.extractLsb_toNat, Nat.shiftRight_eq_div_pow]

@[simp]
theorem eval_mkConcat {n : Nat} (b : Term n) : (mkConcat a b).eval v = a.eval v ++ b.eval v := rfl

@[simp]
theorem eval_mkSignExtend (amount : Nat)
    : (mkSignExtend a amount).eval v = (a.eval v).signExtend (w + amount) :=
  rfl

end Meaning

end Ava6.Bv
