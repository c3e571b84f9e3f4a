import Ava6.Bv.Formula

/-! The invertibility conditions of the bit-vector inverter, as the formulas it builds.
Each `scl...` function is the condition that the corresponding `getIC...` function places
in front of the literal it solves for `x`.
-/

namespace Ava6.Quantifiers.BvInverter

open Ava6.Bv

variable {w : Nat}

/-- The relations the inverter accepts between `x op s` and `t`. -/
inductive LitKind
  | equal | ult | ugt | slt | sgt
  deriving DecidableEq, Repr

def LitKind.relation : LitKind → Relation
  | .equal => .equal
  | .ult => .ult
  | .ugt => .ugt
  | .slt => .slt
  | .sgt => .sgt

/-- The operators of the inverter, each applied to the solved variable and to `s`. -/
inductive OpKind
  | mult | urem | udiv | lshr | ashr | shl | and | or
  deriving DecidableEq, Repr

def OpKind.mkNode : OpKind → Term w → Term w → Term w
  | .mult, a, b => mkNary .mult a b
  | .urem, a, b => .binary .urem a b
  | .udiv, a, b => .binary .udiv a b
  | .lshr, a, b => .binary .lshr a b
  | .ashr, a, b => .binary .ashr a b
  | .shl, a, b => .binary .shl a b
  | .and, a, b => mkNary .and a b
  | .or, a, b => mkNary .or a b

/-- The literal `scr` with its polarity; `idx` says on which side of `s` the variable is. -/
def literal (pol : Bool) (litk : LitKind) (k : OpKind) (idx : Nat) (x s t : Term w)
    : Formula :=
  let scr := Formula.rel litk.relation (if idx = 0 then k.mkNode x s else k.mkNode s x) t
  if pol then scr else .not scr

/-- `nm->mkNode(k, a, b)` for a relation kind. -/
def mkRel (k : Relation) (a b : Term w) : Formula := .rel k a b

/-- `a.eqNode(b).notNode()`. -/
def mkNe (a b : Term w) : Formula := .not (.rel .equal a b)

/-- Of the kinds `ult` and `ugt`. -/
def getICBvUltUgt (pol : Bool) (k : LitKind) (x t : Term w) : Formula :=
  if pol then
    let bound := if k = .ult then mkZero w t.positive else mkOnes w t.positive
    .implies (mkRel .distinct t bound) (mkRel k.relation x t)
  else .not (mkRel k.relation x t)

/-- Of the kinds `slt` and `sgt`. -/
def getICBvSltSgt (pol : Bool) (k : LitKind) (x t : Term w) : Formula :=
  if pol then
    let scl :=
      if k = .slt then mkRel .distinct (mkMinSigned w t.positive) t
      else mkRel .distinct t (mkMaxSigned w t.positive)
    .implies scl (mkRel k.relation x t)
  else .not (mkRel k.relation x t)

def sclBvMult (pol : Bool) (litk : LitKind) (s t : Term w) : Formula :=
  let z := mkZero w s.positive
  let max := mkMaxSigned w s.positive
  let o := mkNary .or (mkNeg s) s
  match litk, pol with
  | .equal, true => mkRel .equal (mkNary .and o t) t
  | .equal, false => .or [mkNe t z, mkNe s z]
  | .ult, true => mkRel .distinct t z
  | .ult, false => mkRel .uge o t
  | .ugt, true => mkRel .ult t o
  | .ugt, false => .const true
  | .slt, true => mkRel .slt (mkNary .and (mkNot (mkNeg t)) o) t
  | .slt, false => mkRel .sge (mkNary .and o max) t
  | .sgt, true =>
      mkRel .slt t (.binary .sub t (mkNary .or (mkNary .or s t) (mkNeg s)))
  | .sgt, false => .not (.and [mkRel .equal s z, mkRel .slt t s])

def getICBvMult (pol : Bool) (litk : LitKind) (idx : Nat) (x s t : Term w) : Formula :=
  .implies (sclBvMult pol litk s t) (literal pol litk .mult idx x s t)

def sclBvUrem (pol : Bool) (litk : LitKind) (idx : Nat) (s t : Term w) : Formula :=
  let z := mkZero w s.positive
  let one := mkOne w s.positive
  let ones := mkOnes w s.positive
  let max := mkMaxSigned w s.positive
  let min := mkMinSigned w s.positive
  let nt := mkNot (mkNeg s)
  let a := mkNary .and (.binary .sub (mkNary .add t t) s) s
  match litk, decide (idx = 0), pol with
  | .equal, true, true => mkRel .uge nt t
  | .equal, true, false => .or [mkNe s one, mkNe t z]
  | .equal, false, true => mkRel .uge a t
  | .equal, false, false => .or [mkNe s z, mkNe t z]
  | .ult, true, true => mkNe t z
  | .ult, true, false => mkRel .uge nt t
  | .ult, false, true => mkNe t z
  | .ult, false, false => .or [mkRel .uge a t, mkRel .ult t s]
  | .ugt, true, true => mkRel .ult t nt
  | .ugt, true, false => .const true
  | .ugt, false, true => mkRel .ult t s
  | .ugt, false, false => .const true
  | .slt, true, true => mkRel .slt (mkNot t) (mkNary .or (mkNeg s) (mkNeg t))
  | .slt, true, false => .or [mkRel .slt t s, mkRel .sge z s]
  | .slt, false, true => .or [mkRel .slt s t, mkRel .slt z t]
  | .slt, false, false =>
      .and [.implies (mkRel .sge s z) (mkRel .sge s t),
        .implies (.and [mkRel .slt s z, mkRel .sge t z]) (mkRel .ugt (.binary .sub s t) t)]
  | .sgt, true, true =>
      .and [.and [.implies (mkRel .sgt s z) (mkRel .slt t nt), .implies (mkRel .sle s z) (mkNe t max)],
        .or [mkNe t z, mkNe s one]]
  | .sgt, true, false => mkRel .slt ones (mkNary .and (mkNeg s) t)
  | .sgt, false, true =>
      .and [.implies (mkRel .sge s z) (mkRel .sgt s t),
        .implies (mkRel .slt s z) (mkRel .sgt (.binary .lshr (mkDec s) one) t)]
  | .sgt, false, false => .or [mkRel .ult t min, mkRel .sge t s]

def getICBvUrem (pol : Bool) (litk : LitKind) (idx : Nat) (x s t : Term w) : Formula :=
  .implies (sclBvUrem pol litk idx s t) (literal pol litk .urem idx x s t)

def sclBvUdiv (pol : Bool) (litk : LitKind) (idx : Nat) (s t : Term w) : Formula :=
  let z := mkZero w s.positive
  let one := mkConst w 1 s.positive
  let ones := mkOnes w s.positive
  let max := mkMaxSigned w s.positive
  let min := mkMinSigned w s.positive
  let mul := mkNary .mult s t
  match litk, decide (idx = 0), pol with
  | .equal, true, true => mkRel .equal (.binary .udiv mul s) t
  | .equal, true, false => .or [mkNe s z, mkNe t ones]
  | .equal, false, true => mkRel .equal (.binary .udiv s (.binary .udiv s t)) t
  -- the source tests the width here, and twice below
  | .equal, false, false =>
      if 1 < w then .const true else mkRel .equal (mkNary .and s t) z
  | .ult, true, true => .and [mkRel .ult z s, mkRel .ult z t]
  | .ult, true, false => mkRel .equal (mkNary .and (.binary .udiv mul t) s) s
  | .ult, false, true =>
      .and [mkRel .ult z (mkNot (mkNary .and (mkNeg t) s)), mkRel .ult z t]
  | .ult, false, false => .const true
  | .ugt, true, true => mkRel .ugt (.binary .udiv ones s) t
  | .ugt, true, false => mkRel .uge (mkNary .or s t) (mkNot (mkNeg s))
  | .ugt, false, true => mkRel .ult t ones
  | .ugt, false, false => mkRel .ult z (mkNary .or (mkNot s) t)
  | .slt, true, true => .implies (mkRel .sle t z) (mkRel .slt (.binary .udiv min s) t)
  | .slt, true, false =>
      .or [mkRel .sge (.binary .udiv ones s) t, mkRel .sge (.binary .udiv max s) t]
  | .slt, false, true => .or [mkRel .slt s t, mkRel .sge t z]
  | .slt, false, false =>
      if 1 < w then
        .and [.implies (mkRel .sge s z) (mkRel .sge s t),
          .implies (mkRel .slt s z) (mkRel .sge (.binary .lshr s one) t)]
      else mkRel .sge s t
  | .sgt, true, true =>
      .or [mkRel .sgt (.binary .udiv ones s) t, mkRel .sgt (.binary .udiv max s) t]
  | .sgt, true, false =>
      .or [mkRel .equal (.binary .udiv mul s) t,
        .implies (mkRel .sle t z) (mkRel .slt (.binary .udiv min s) t)]
  | .sgt, false, true =>
      if 1 < w then
        .and [.implies (mkRel .sge s z) (mkRel .sgt s t),
          .implies (mkRel .slt s z) (mkRel .sgt (.binary .lshr s one) t)]
      else mkRel .sgt s t
  | .sgt, false, false => .or [mkRel .sge t ones, mkRel .sge t s]

def getICBvUdiv (pol : Bool) (litk : LitKind) (idx : Nat) (x s t : Term w) : Formula :=
  .implies (sclBvUdiv pol litk idx s t) (literal pol litk .udiv idx x s t)

/-- Of the kinds `and` and `or`. -/
def sclBvAndOr (pol : Bool) (litk : LitKind) (k : OpKind) (s t : Term w) : Formula :=
  let z := mkZero w s.positive
  let ones := mkOnes w s.positive
  let max := mkMaxSigned w s.positive
  let min := mkMinSigned w s.positive
  match litk, pol with
  | .equal, true => mkRel .equal t (k.mkNode t s)
  | .equal, false => if k = .and then .or [mkNe s z, mkNe t z] else .or [mkNe s ones, mkNe t ones]
  | .ult, true => if k = .and then mkNe t z else mkRel .ult s t
  | .ult, false => if k = .and then mkRel .uge s t else .const true
  | .ugt, true => if k = .and then mkRel .ult t s else mkRel .ult t ones
  | .ugt, false => if k = .and then .const true else mkRel .uge t s
  | .slt, true =>
      if k = .and then mkRel .slt (mkNary .and (mkNot (mkNeg t)) s) t
      else mkRel .slt (mkNary .or (mkNot (.binary .sub s t)) s) t
  | .slt, false =>
      if k = .and then
        .or [mkRel .equal (mkNary .and s t) t, mkRel .slt t (mkNary .and (.binary .sub t s) s)]
      else mkRel .sge s (mkNary .and s t)
  | .sgt, true => mkRel .slt t (k.mkNode s max)
  | .sgt, false =>
      if k = .and then mkRel .uge s (mkNary .and t min) else mkRel .sge t (mkNary .or s min)

/-- The position of the variable is ignored. -/
def getICBvAndOr (pol : Bool) (litk : LitKind) (k : OpKind) (_idx : Nat) (x s t : Term w) : Formula :=
  .implies (sclBvAndOr pol litk k s t) (literal pol litk k 0 x s t)

/-- The disjunction over all shift amounts `0..w`; amount `0` is written as `s` itself. -/
def defaultShiftIC (litk : Relation) (shk : BinaryKind) (s t : Term w) : Formula :=
  .or (mkRel litk s t
    :: (List.range w).map (fun i =>
      mkRel litk (.binary shk s (mkConst w (i + 1) s.positive)) t))

def sclBvLshr (pol : Bool) (litk : LitKind) (idx : Nat) (s t : Term w) : Formula :=
  let z := mkZero w s.positive
  let one := mkConst w 1 s.positive
  let ww := mkConst w w s.positive
  let ones := mkOnes w s.positive
  let max := mkMaxSigned w s.positive
  let min := mkMinSigned w s.positive
  match litk, decide (idx = 0), pol with
  | .equal, true, true => mkRel .equal (.binary .lshr (.binary .shl t s) s) t
  | .equal, true, false => .or [mkNe t z, mkRel .ult s ww]
  | .equal, false, true => defaultShiftIC .equal .lshr s t
  | .equal, false, false => .or [mkNe s z, mkNe t z]
  | .ult, true, true => mkNe t z
  | .ult, true, false => mkRel .equal (.binary .lshr (.binary .shl t s) s) t
  | .ult, false, true => mkNe t z
  | .ult, false, false => mkRel .uge s t
  | .ugt, true, true => mkRel .ult t (.binary .lshr (mkNot s) s)
  | .ugt, true, false => .const true
  | .ugt, false, true => mkRel .ult t s
  | .ugt, false, false => .const true
  | .slt, true, true => mkRel .slt (.binary .lshr (mkNot (mkNeg t)) s) t
  | .slt, true, false => .implies (mkNe s z) (mkRel .sge (.binary .lshr ones s) t)
  | .slt, false, true => .or [mkRel .slt s t, mkRel .slt z t]
  | .slt, false, false =>
      .and [.implies (mkRel .slt s z) (mkRel .sge (.binary .lshr s one) t),
        .implies (.not (mkRel .slt s z)) (mkRel .sge s t)]
  | .sgt, true, true => mkRel .slt t (.binary .lshr (.binary .shl max s) s)
  | .sgt, true, false => mkRel .sge t (.binary .lshr t s)
  | .sgt, false, true =>
      .and [.implies (mkRel .slt s z) (mkRel .sgt (.binary .lshr s one) t),
        .implies (.not (mkRel .slt s z)) (mkRel .sgt s t)]
  | .sgt, false, false => .or [mkRel .ult t min, mkRel .sge t s]

def getICBvLshr (pol : Bool) (litk : LitKind) (idx : Nat) (x s t : Term w) : Formula :=
  .implies (sclBvLshr pol litk idx s t) (literal pol litk .lshr idx x s t)

def sclBvAshr (pol : Bool) (litk : LitKind) (idx : Nat) (s t : Term w) : Formula :=
  let z := mkZero w s.positive
  let n := mkOnes w s.positive
  let ult := mkRel .ult s (mkConst w w s.positive)
  let max := mkMaxSigned w s.positive
  let min := mkMinSigned w s.positive
  match litk, decide (idx = 0), pol with
  | .equal, true, true =>
      .and [.implies ult (mkRel .equal (.binary .ashr (.binary .shl t s) s) t),
        .implies (.not ult) (.or [mkRel .equal t n, mkRel .equal t z])]
  | .equal, true, false => .const true
  | .equal, false, true => defaultShiftIC .equal .ashr s t
  | .equal, false, false => .and [.or [mkNe t z, mkNe s z], .or [mkNe t n, mkNe s n]]
  | .ult, true, true => mkNe t z
  | .ult, true, false => .const true
  | .ult, false, true => .and [.not (.and [mkRel .uge s t, mkRel .slt s z]), mkNe t z]
  | .ult, false, false => .not (.and [mkRel .ult s (mkNot s), mkRel .ult s t])
  | .ugt, true, true => mkRel .ult t n
  | .ugt, true, false => .const true
  | .ugt, false, true => .or [mkRel .slt s (.binary .lshr s (mkNot t)), mkRel .ult t s]
  | .ugt, false, false => .or [mkRel .ult s min, mkRel .uge t s]
  | .slt, true, true => mkRel .slt (.binary .ashr min s) t
  | .slt, true, false => mkRel .sge (.binary .lshr max s) t
  | .slt, false, true => .or [mkRel .slt s t, mkRel .slt z t]
  | .slt, false, false => .not (.and [mkRel .ult t (mkNot t), mkRel .slt s t])
  | .sgt, true, true => mkRel .slt t (.binary .lshr max s)
  | .sgt, true, false => mkRel .sge t (mkNot (.binary .lshr max s))
  | .sgt, false, true =>
      .and [mkRel .slt t (mkNary .and s max), mkRel .slt t (mkNary .or s max)]
  | .sgt, false, false => .or [mkRel .sge t z, mkRel .sge t s]

def getICBvAshr (pol : Bool) (litk : LitKind) (idx : Nat) (x s t : Term w) : Formula :=
  .implies (sclBvAshr pol litk idx s t) (literal pol litk .ashr idx x s t)

def sclBvShl (pol : Bool) (litk : LitKind) (idx : Nat) (s t : Term w) : Formula :=
  let z := mkZero w s.positive
  let ww := mkConst w w s.positive
  let ones := mkOnes w s.positive
  let max := mkMaxSigned w s.positive
  let min := mkMinSigned w s.positive
  match litk, decide (idx = 0), pol with
  | .equal, true, true => mkRel .equal (.binary .shl (.binary .lshr t s) s) t
  | .equal, true, false => .or [mkNe t z, mkRel .ult s ww]
  | .equal, false, true => defaultShiftIC .equal .shl s t
  | .equal, false, false => .or [mkNe s z, mkNe t z]
  | .ult, true, true => mkNe t z
  | .ult, true, false => mkRel .uge (.binary .shl ones s) t
  | .ult, false, true => mkNe t z
  | .ult, false, false => defaultShiftIC .uge .shl s t
  | .ugt, true, true => mkRel .ult t (.binary .shl ones s)
  | .ugt, true, false => .const true
  | .ugt, false, true => defaultShiftIC .ugt .shl s t
  | .ugt, false, false => .const true
  | .slt, true, true => mkRel .slt (.binary .shl (.binary .lshr min s) s) t
  | .slt, true, false => mkRel .sge (mkNary .and (.binary .shl max s) max) t
  | .slt, false, true => mkRel .ult (.binary .shl min s) (mkNary .add t min)
  | .slt, false, false => defaultShiftIC .sge .shl s t
  | .sgt, true, true => mkRel .slt t (mkNary .and (.binary .shl max s) max)
  | .sgt, true, false => mkRel .ult (.binary .lshr t (.binary .lshr t s)) min
  | .sgt, false, true => defaultShiftIC .sgt .shl s t
  | .sgt, false, false => mkRel .ult (.binary .lshr t s) min

def getICBvShl (pol : Bool) (litk : LitKind) (idx : Nat) (x s t : Term w) : Formula :=
  .implies (sclBvShl pol litk idx s t) (literal pol litk .shl idx x s t)

/-- A child of a concatenation, with the children before it and after it. -/
inductive Position (n : Nat)
  | whole (child : Term n)
  | first {wx w2 : Nat} (width : n = wx + w2) (child : Term wx) (s2 : Parts w2)
  | last {w1 wx : Nat} (width : n = w1 + wx) (s1 : Parts w1) (child : Term wx)
  | middle {w1 wx w2 : Nat} (width : n = w1 + (wx + w2)) (s1 : Parts w1) (child : Term wx)
    (s2 : Parts w2)

/-- A child before all others. -/
def Position.prepend {m n : Nat} (a : Term m) : Position n → Position (m + n)
  | .whole child => .last rfl (.single a) child
  | .first width child s2 => .middle (width ▸ rfl) (.single a) child s2
  | .last width s1 child => .last (by omega) (.cons a s1) child
  | .middle width s1 child s2 => .middle (by omega) (.cons a s1) child s2

def position : {n : Nat} → Parts n → Nat → Option (Position n)
  | _, .single a, 0 => some (.whole a)
  | _, .single _, _ + 1 => none
  | _, .cons a rest, 0 => some (.first rfl a rest)
  | _, .cons a rest, idx + 1 => (position rest idx).map (Position.prepend a)

/-- One child, or the concatenation of several ones. -/
def partsNode {n : Nat} : Parts n → Term n
  | .single a => a
  | .cons a rest => .concat (.cons a rest)

/-- `x` before `s2`, where `t` is read as `tx` before `t2`. -/
def sclBvConcatFirst (pol : Bool) (litk : LitKind) {wx w2 : Nat} (tx : Term wx) (s2 t2 : Term w2)
    : Formula :=
  let z := mkZero wx tx.positive
  let ones := mkOnes wx tx.positive
  let max := mkMaxSigned wx tx.positive
  let min := mkMinSigned wx tx.positive
  match litk, pol with
  | .equal, true => mkRel .equal s2 t2
  | .equal, false => .const true
  | .ult, true => .implies (mkRel .equal tx z) (mkRel .ult s2 t2)
  | .ult, false => .implies (mkRel .equal tx ones) (mkRel .uge s2 t2)
  | .ugt, true => .implies (mkRel .equal tx ones) (mkRel .ugt s2 t2)
  | .ugt, false => .implies (mkRel .equal tx z) (mkRel .ule s2 t2)
  | .slt, true => .implies (mkRel .equal tx min) (mkRel .ult s2 t2)
  | .slt, false => .implies (mkRel .equal tx max) (mkRel .uge s2 t2)
  | .sgt, true => .implies (mkRel .equal tx max) (mkRel .ugt s2 t2)
  | .sgt, false => .implies (mkRel .equal tx min) (mkRel .ule s2 t2)

/-- `s1` before `x`, where `t` is read as `t1` before `tx`. -/
def sclBvConcatLast (pol : Bool) (litk : LitKind) {w1 wx : Nat} (s1 t1 : Term w1) (tx : Term wx)
    : Formula :=
  let z := mkZero wx tx.positive
  let ones := mkOnes wx tx.positive
  match litk, pol with
  | .equal, true => mkRel .equal s1 t1
  | .equal, false => .const true
  | .ult, true => .and [mkRel .ule s1 t1, .implies (mkRel .equal s1 t1) (mkNe tx z)]
  | .ult, false => mkRel .uge s1 t1
  | .ugt, true => .and [mkRel .uge s1 t1, .implies (mkRel .equal s1 t1) (mkNe tx ones)]
  | .ugt, false => mkRel .ule s1 t1
  | .slt, true => .and [mkRel .sle s1 t1, .implies (mkRel .equal s1 t1) (mkNe tx z)]
  | .slt, false => mkRel .sge s1 t1
  | .sgt, true => .and [mkRel .sge s1 t1, .implies (mkRel .equal s1 t1) (mkNe tx ones)]
  | .sgt, false => mkRel .sle s1 t1

/-- `s1` before `x` before `s2`, where `t` is read as `t1` before `tx` before `t2`. -/
def sclBvConcatMiddle (pol : Bool) (litk : LitKind) {w1 wx w2 : Nat} (s1 t1 : Term w1) (tx : Term wx)
    (s2 t2 : Term w2) : Formula :=
  let z := mkZero wx tx.positive
  let ones := mkOnes wx tx.positive
  let atZero := Formula.and [mkRel .equal s1 t1, mkRel .equal tx z]
  let atOnes := Formula.and [mkRel .equal s1 t1, mkRel .equal tx ones]
  match litk, pol with
  | .equal, true => .and [mkRel .equal s1 t1, mkRel .equal s2 t2]
  | .equal, false => .const true
  | .ult, true => .and [mkRel .ule s1 t1, .implies atZero (mkRel .ult s2 t2)]
  | .ult, false => .and [mkRel .uge s1 t1, .implies atOnes (mkRel .uge s2 t2)]
  | .ugt, true => .and [mkRel .uge s1 t1, .implies atOnes (mkRel .ugt s2 t2)]
  | .ugt, false => .and [mkRel .ule s1 t1, .implies atZero (mkRel .ule s2 t2)]
  | .slt, true => .and [mkRel .sle s1 t1, .implies atZero (mkRel .ult s2 t2)]
  | .slt, false => .and [mkRel .sge s1 t1, .implies atOnes (mkRel .uge s2 t2)]
  | .sgt, true => .and [mkRel .sge s1 t1, .implies atOnes (mkRel .ugt s2 t2)]
  | .sgt, false => .and [mkRel .sle s1 t1, .implies atZero (mkRel .ule s2 t2)]

/-- The literal `scr` with its polarity. -/
def mkLiteral {n : Nat} (pol : Bool) (litk : LitKind) (scr t : Term n) : Formula :=
  if pol then .rel litk.relation scr t else .not (.rel litk.relation scr t)

/-- The variable of each width is given. Undefined when there is no such child, or no other one. -/
def getICBvConcat {n : Nat} (pol : Bool) (litk : LitKind) (idx : Nat) (x : (k : Nat) → 0 < k → Term k)
    (sv_t : Parts n) (t : Term n) : Option Formula :=
  match position sv_t idx with
  | none | some (.whole _) => none
  | some (@Position.first _ wx w2 width child s2) =>
      have positive := child.positive
      have positive2 := s2.positive
      let tx := mkExtract t (n - 0 - 1) (n - 0 - wx) (by omega) (show _ = wx by omega)
      let t2 := mkExtract t (w2 - 1) 0 (by omega) (show _ = w2 by omega)
      let scr := (mkConcat (x wx positive) (partsNode s2)).cast width.symm
      some (.implies (sclBvConcatFirst pol litk tx (partsNode s2) t2) (mkLiteral pol litk scr t))
  | some (@Position.last _ w1 wx width s1 child) =>
      have positive := child.positive
      have positive1 := s1.positive
      let t1 := mkExtract t (n - 1) (n - w1) (by omega) (show _ = w1 by omega)
      let tx := mkExtract t (n - w1 - 1) (n - w1 - wx) (by omega) (show _ = wx by omega)
      let scr := (mkConcat (partsNode s1) (x wx positive)).cast width.symm
      some (.implies (sclBvConcatLast pol litk (partsNode s1) t1 tx) (mkLiteral pol litk scr t))
  | some (@Position.middle _ w1 wx w2 width s1 child s2) =>
      have positive := child.positive
      have positive1 := s1.positive
      have positive2 := s2.positive
      let t1 := mkExtract t (n - 1) (n - w1) (by omega) (show _ = w1 by omega)
      let tx := mkExtract t (n - w1 - 1) (n - w1 - wx) (by omega) (show _ = wx by omega)
      let t2 := mkExtract t (w2 - 1) 0 (by omega) (show _ = w2 by omega)
      let scr := (mkConcat (mkConcat (partsNode s1) (x wx positive)) (partsNode s2)).cast (by omega)
      some (.implies (sclBvConcatMiddle pol litk (partsNode s1) t1 tx (partsNode s2) t2)
        (mkLiteral pol litk scr t))

/-- Undefined when a vector without bits would be needed. -/
def sclBvSext (pol : Bool) (litk : LitKind) {wx ws : Nat} (positive : 0 < wx) (t : Term (wx + ws))
    : Option Formula :=
  have positiveT := t.positive
  let w := wx + ws
  let ext := mkExtract t (w - 1) (w - 1 - ws) (by omega) (show _ = ws + 1 by omega)
  let inRange := Formula.or [mkRel .equal ext (mkZero (ws + 1) (Nat.succ_pos ws)),
    mkRel .equal ext (mkOnes (ws + 1) (Nat.succ_pos ws))]
  let min := mkMinSigned wx positive
  let max := mkMaxSigned wx positive
  let zeroExtended := if amount : 0 < ws then some ((mkConcat (mkZero ws amount) max).cast (Nat.add_comm ws wx)) else none
  match litk, pol with
  | .equal, true => some inRange
  | .equal, false => some (.const true)
  | .ult, true => some (mkNe t (mkZero w positiveT))
  | .ult, false => some (.const true)
  | .ugt, true => some (mkNe t (mkOnes w positiveT))
  | .ugt, false => some (.const true)
  | .slt, true => some (mkRel .slt (mkSignExtend min ws) t)
  | .slt, false => zeroExtended.map (fun ext => .or [inRange, mkRel .slt t ext])
  | .sgt, true => zeroExtended.map (fun ext => mkRel .slt t ext)
  | .sgt, false => zeroExtended.map (fun ext => mkRel .sge t (mkNot ext))

def getICBvSext (pol : Bool) (litk : LitKind) {wx ws : Nat} (x : Term wx) (t : Term (wx + ws)) : Option Formula :=
  (sclBvSext pol litk x.positive t).map (fun scl => .implies scl (mkLiteral pol litk (mkSignExtend x ws) t))

end Ava6.Quantifiers.BvInverter
