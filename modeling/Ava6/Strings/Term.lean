import Ava6.Util.InternalString

/-! Terms of sort string and integer, and their SMT-LIB meaning. Positions and lengths out of range give the empty
string, and a position that is not found is minus one.
-/

namespace Ava6.Strings

/-- Characters are numbers. -/
abbrev Word := List Nat

namespace Word

open Util.InternalString (isDigit)

/-- A non-empty word of digits. -/
def isNumber (w : Word) : Bool := !w.isEmpty && w.all isDigit

/-- The first position from some position on where a word starts. -/
def findFrom (w t : Word) (start : Nat) : Option Nat :=
  ((List.range (w.length + 1)).filter (fun i => decide (start ≤ i) && t.isPrefixOf (w.drop i))).head?

def substr (w : Word) (start length : Int) : Word :=
  if 0 ≤ start ∧ start < w.length ∧ 0 < length then (w.drop start.toNat).take length.toNat else []

def indexof (w t : Word) (start : Int) : Int :=
  if 0 ≤ start ∧ start ≤ w.length then ((findFrom w t start.toNat).map Int.ofNat).getD (-1) else -1

/-- The first occurrence is replaced. -/
def replace (w t replacement : Word) : Word :=
  match findFrom w t 0 with
  | some i => w.take i ++ replacement ++ w.drop (i + t.length)
  | none => w

/-- The decimal digits of a number that is not negative. -/
def fromInt (n : Int) : Word :=
  if n < 0 then [] else if n = 0 then [48] else (Nat.digits 10 n.toNat).reverse.map (· + 48)

def toInt (w : Word) : Int :=
  if isNumber w then (Nat.ofDigits 10 (w.reverse.map (· - 48)) : Nat) else -1

end Word

mutual
inductive StringTerm
  | const (w : Word)
  /-- A variable, or any term whose operator is not one of the others. -/
  | var (name : Nat)
  | concat (children : StringTerms)
  | unit (code : IntTerm)
  | substr (s : StringTerm) (start length : IntTerm)
  | replace (s t replacement : StringTerm)
  | fromInt (n : IntTerm)
  deriving DecidableEq, Repr

inductive StringTerms
  | nil
  | cons (head : StringTerm) (tail : StringTerms)
  deriving DecidableEq, Repr

inductive IntTerm
  | const (n : Int)
  | var (name : Nat)
  | add (children : IntTerms)
  | mult (children : IntTerms)
  | nonlinearMult (children : IntTerms)
  | sub (a b : IntTerm)
  | length (s : StringTerm)
  | indexof (s t : StringTerm) (start : IntTerm)
  | toInt (s : StringTerm)
  deriving DecidableEq, Repr

inductive IntTerms
  | nil
  | cons (head : IntTerm) (tail : IntTerms)
  deriving DecidableEq, Repr
end

namespace StringTerms

def toList : StringTerms → List StringTerm
  | .nil => []
  | .cons head tail => head :: tail.toList

def ofList : List StringTerm → StringTerms
  | [] => .nil
  | head :: tail => .cons head (ofList tail)

@[simp]
theorem toList_ofList (terms : List StringTerm) : (ofList terms).toList = terms := by
  induction terms with
  | nil => rfl
  | cons head tail ih => rw [ofList, toList, ih]

end StringTerms

namespace IntTerms

def toList : IntTerms → List IntTerm
  | .nil => []
  | .cons head tail => head :: tail.toList

def ofList : List IntTerm → IntTerms
  | [] => .nil
  | head :: tail => .cons head (ofList tail)

@[simp]
theorem toList_ofList (terms : List IntTerm) : (ofList terms).toList = terms := by
  induction terms with
  | nil => rfl
  | cons head tail ih => rw [ofList, toList, ih]

end IntTerms

def StringTerm.isConst : StringTerm → Bool
  | .const _ => true
  | _ => false

/-- The first character of a constant. -/
def StringTerm.front : StringTerm → Nat
  | .const w => w.headD 0
  | _ => 0

structure Assignment where
  string : Nat → Word
  int : Nat → Int

variable (A : Assignment)

mutual
def StringTerm.eval : StringTerm → Word
  | .const w => w
  | .var name => A.string name
  | .concat children => children.eval
  | .unit code => [code.eval.toNat]
  | .substr s start length => s.eval.substr start.eval length.eval
  | .replace s t replacement => s.eval.replace t.eval replacement.eval
  | .fromInt n => Word.fromInt n.eval

def StringTerms.eval : StringTerms → Word
  | .nil => []
  | .cons head tail => head.eval ++ tail.eval

def IntTerm.eval : IntTerm → Int
  | .const n => n
  | .var name => A.int name
  | .add children => children.sum
  | .mult children | .nonlinearMult children => children.product
  | .sub a b => a.eval - b.eval
  | .length s => s.eval.length
  | .indexof s t start => s.eval.indexof t.eval start.eval
  | .toInt s => s.eval.toInt

def IntTerms.sum : IntTerms → Int
  | .nil => 0
  | .cons head tail => head.eval + tail.sum

def IntTerms.product : IntTerms → Int
  | .nil => 1
  | .cons head tail => head.eval * tail.product
end

variable {A}

theorem StringTerms.eval_eq (children : StringTerms)
    : children.eval A = (children.toList.map (StringTerm.eval A)).flatten := by
  match children with
  | .nil => rw [eval, toList, List.map_nil, List.flatten_nil]
  | .cons head tail => rw [eval, toList, List.map_cons, List.flatten_cons, eval_eq tail]

theorem IntTerms.sum_eq (children : IntTerms) : children.sum A = (children.toList.map (IntTerm.eval A)).sum := by
  match children with
  | .nil => rw [sum, toList, List.map_nil, List.sum_nil]
  | .cons head tail => rw [sum, toList, List.map_cons, List.sum_cons, sum_eq tail]

/-- The concatenation of some terms. -/
def wordOf (A : Assignment) (terms : List StringTerm) : Word := (terms.map (StringTerm.eval A)).flatten

@[simp]
theorem wordOf_nil : wordOf A [] = [] := rfl

@[simp]
theorem wordOf_cons (s : StringTerm) (terms : List StringTerm) : wordOf A (s :: terms) = s.eval A ++ wordOf A terms :=
  rfl

theorem wordOf_append (terms terms' : List StringTerm)
    : wordOf A (terms ++ terms') = wordOf A terms ++ wordOf A terms' := by
  rw [wordOf, List.map_append, List.flatten_append]
  rfl

theorem wordOf_singleton (s : StringTerm) : wordOf A [s] = s.eval A := List.append_nil _

@[simp]
theorem eval_const (w : Word) : (StringTerm.const w).eval A = w := by rw [StringTerm.eval]

theorem eval_concat (children : StringTerms) : (StringTerm.concat children).eval A = wordOf A children.toList := by
  rw [StringTerm.eval, StringTerms.eval_eq]
  rfl

/-- The components of a concatenation. -/
def getConcat : StringTerm → List StringTerm
  | .concat children => children.toList
  | s => [s]

def mkConcat : List StringTerm → StringTerm
  | [] => .const []
  | [s] => s
  | terms => .concat (.ofList terms)

theorem wordOf_getConcat (s : StringTerm) : wordOf A (getConcat s) = s.eval A := by
  match s with
  | .concat children => rw [getConcat, eval_concat]
  | .const _ | .var _ | .unit _ | .substr _ _ _ | .replace _ _ _ | .fromInt _ => exact wordOf_singleton _

theorem eval_mkConcat (terms : List StringTerm) : (mkConcat terms).eval A = wordOf A terms := by
  match terms with
  | [] => exact eval_const []
  | [s] => exact (wordOf_singleton s).symm
  | first :: second :: rest =>
      change (StringTerm.concat (.ofList (first :: second :: rest))).eval A = _
      rw [eval_concat, StringTerms.toList_ofList]

end Ava6.Strings
