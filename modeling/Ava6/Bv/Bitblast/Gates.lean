import Ava6.Bv.Term

/-! The Boolean nodes the bit-blaster builds, and their meaning when each bit of a variable
is given the value it has in the variable.
-/

namespace Ava6.Bv.Bitblast

/-- A Boolean node. `bit` is the `i`-th bit of a bit-vector variable. -/
inductive Gate
  | const (value : Bool)
  | bit (width name i : Nat)
  | not (a : Gate)
  | and (children : List Gate)
  | or (children : List Gate)
  | xor (a b : Gate)
  | iff (a b : Gate)
  | ite (cond a b : Gate)

abbrev Bits := List Gate

mutual
def Gate.eval (v : Valuation) : Gate → Bool
  | .const value => value
  | .bit width name i => (v width name).getLsbD i
  | .not a => !a.eval v
  | .and children => evalAll v children
  | .or children => evalAny v children
  | .xor a b => a.eval v ^^ b.eval v
  | .iff a b => a.eval v == b.eval v
  | .ite cond a b => if cond.eval v then a.eval v else b.eval v

def evalAll (v : Valuation) : List Gate → Bool
  | [] => true
  | a :: rest => a.eval v && evalAll v rest

def evalAny (v : Valuation) : List Gate → Bool
  | [] => false
  | a :: rest => a.eval v || evalAny v rest
end

attribute [simp] Gate.eval evalAll evalAny

theorem evalAll_eq_true (v : Valuation) (children : List Gate)
    : evalAll v children = true ↔ ∀ a ∈ children, a.eval v = true := by
  induction children with
  | nil => simp
  | cons a rest ih => simp [ih]

def mkTrue : Gate := .const true

def mkFalse : Gate := .const false

def mkNot (a : Gate) : Gate := .not a

def mkOr (a b : Gate) : Gate := .or [a, b]

def mkAnd (a b : Gate) : Gate := .and [a, b]

/-- The conjunction of a vector of bits; a single bit is not wrapped. -/
def mkAndAll : List Gate → Gate
  | [a] => a
  | children => .and children

def mkXor (a b : Gate) : Gate := .xor a b

def mkIff (a b : Gate) : Gate := .iff a b

def mkIte (cond a b : Gate) : Gate := .ite cond a b

section Meaning
variable (v : Valuation) (a b c : Gate)

@[simp] theorem eval_mkTrue : mkTrue.eval v = true := rfl

@[simp] theorem eval_mkFalse : mkFalse.eval v = false := rfl

@[simp] theorem eval_mkNot : (mkNot a).eval v = !a.eval v := rfl

@[simp] theorem eval_mkOr : (mkOr a b).eval v = (a.eval v || b.eval v) := by simp [mkOr]

@[simp] theorem eval_mkAnd : (mkAnd a b).eval v = (a.eval v && b.eval v) := by simp [mkAnd]

@[simp] theorem eval_mkXor : (mkXor a b).eval v = (a.eval v ^^ b.eval v) := rfl

@[simp] theorem eval_mkIff : (mkIff a b).eval v = (a.eval v == b.eval v) := rfl

@[simp]
theorem eval_mkIte : (mkIte c a b).eval v = if c.eval v then a.eval v else b.eval v := rfl

theorem eval_mkAndAll (children : List Gate)
    : (mkAndAll children).eval v = true ↔ ∀ a ∈ children, a.eval v = true := by
  unfold mkAndAll
  split
  · simp
  · rw [Gate.eval, evalAll_eq_true]

end Meaning

/-- The values of a vector of bits. -/
def values (v : Valuation) (bits : Bits) : List Bool := bits.map (Gate.eval v)

@[simp] theorem values_nil (v : Valuation) : values v [] = [] := rfl

@[simp]
theorem values_cons (v : Valuation) (a : Gate) (bits : Bits)
    : values v (a :: bits) = a.eval v :: values v bits :=
  rfl

@[simp]
theorem values_append (v : Valuation) (low high : Bits)
    : values v (low ++ high) = values v low ++ values v high := List.map_append

@[simp]
theorem length_values (v : Valuation) (bits : Bits) : (values v bits).length = bits.length :=
  List.length_map ..

/-- Reading past the end gives the false gate and the false value alike. -/
theorem getD_values (v : Valuation) (bits : Bits) (i : Nat)
    : (values v bits).getD i false = (bits.getD i mkFalse).eval v := by
  rw [values, List.getD_eq_getElem?_getD, List.getD_eq_getElem?_getD, List.getElem?_map]
  cases bits[i]? <;> rfl

end Ava6.Bv.Bitblast
