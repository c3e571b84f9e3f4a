import Ava6.Bv.Bitblast.Division
import Ava6.Bv.Bitblast.Shifts

/-! The bit-blasting strategies of the term kinds, each applied to the bits of the children,
and the vectors they represent.
-/

namespace Ava6.Bv.Bitblast

open Ava6.Library.BitList

/-- The bits of a variable. -/
def makeVariable (width name : Nat) : Bits := (List.range width).map (Gate.bit width name)

/-- Adds one to the complement. -/
def defaultNegBB (a : Bits) (size : Nat) : Bits :=
  (rippleCarryAdder (negateBits a) (makeZero size) mkTrue).1

def defaultSubBB (a b : Bits) : Bits := (rippleCarryAdder a (negateBits b) mkTrue).1

def unaryBB (k : UnaryKind) (a : Bits) (size : Nat) : Bits :=
  match k with
  | .not => negateBits a
  | .neg => defaultNegBB a size

def binaryBB (k : BinaryKind) (a b : Bits) (size : Nat) : Bits :=
  match k with
  | .xnor => List.zipWith mkIff a b
  | .sub => defaultSubBB a b
  | .udiv => (udivUremBB a b size).1
  | .urem => (udivUremBB a b size).2
  | .shl => shlBB a b size
  | .lshr => lshrBB a b size
  | .ashr => ashrBB a b size

/-- One iteration of the loop over the children of an n-ary node. -/
def naryBB (k : NaryKind) (res current : Bits) : Bits :=
  match k with
  | .and => List.zipWith mkAnd res current
  | .or => List.zipWith mkOr res current
  | .xor => List.zipWith mkXor res current
  | .add => (rippleCarryAdder res current mkFalse).1
  | .mult => shiftAddMultiplier res current

/-- The conjunction of the bitwise equalities. -/
def eqBB (a b : Bits) : Gate := mkAndAll (List.zipWith mkIff a b)

def flagBB (k : FlagKind) (a b : Bits) : Gate :=
  match k with
  | .comp => eqBB a b
  | .ultbv => uLessThanBB a b false
  | .sltbv => sLessThanBB a b false

def defaultIteBB (cond : Gate) (thenpart elsepart : Bits) : Bits :=
  List.zipWith (fun t e => mkAnd (mkOr (mkNot cond) t) (mkOr cond e)) thenpart elsepart

def defaultExtractBB (high low : Nat) (base : Bits) : Bits :=
  (List.range (high - low + 1)).map fun i => base.getD (low + i) mkFalse

def defaultSignExtendBB (amount : Nat) (bits : Bits) : Bits :=
  bits ++ List.replicate amount (bits.getD (bits.length - 1) mkFalse)

variable (v : Valuation) {w : Nat}

theorem makeVariable_represents (width name : Nat)
    : Represents (values v (makeVariable width name)) (v width name) :=
  represents_map_range v fun _ _ => rfl

theorem eval_eqBB_iff (a b : Bits) (same : a.length = b.length)
    : (eqBB a b).eval v = true ↔ values v a = values v b := by
  rw [eqBB, eval_mkAndAll]
  induction a generalizing b with
  | nil =>
    obtain rfl : b = [] := List.length_eq_zero_iff.mp same.symm
    simp
  | cons p a ih =>
    cases b with
    | nil => simp at same
    | cons q b =>
      have tail := ih b (by simpa using same)
      simp only [List.zipWith_cons_cons, List.forall_mem_cons, eval_mkIff, beq_iff_eq, values_cons,
        List.cons.injEq, tail]

section Binary
variable {a b : Bits} {x y : BitVec w} (left : Represents (values v a) x)
  (right : Represents (values v b) y)
include left right

/-- A strategy that combines the bits position by position. -/
theorem zipWith_represents {gate : Gate → Gate → Gate} {z : BitVec w}
    (same : ∀ i < w, ∀ p q : Gate, p.eval v = x.getLsbD i → q.eval v = y.getLsbD i
      → (gate p q).eval v = z.getLsbD i)
    : Represents (values v (List.zipWith gate a b)) z := by
  have aLength : a.length = w := by simpa using left.length
  have bLength : b.length = w := by simpa using right.length
  refine Represents.of_getD (by simp [aLength, bLength]) fun i inside => ?_
  have p := left.getD i
  have q := right.getD i
  rw [getD_values, List.getD_eq_getElem?_getD, List.getElem?_eq_getElem (by omega)] at p q
  rw [getD_values, List.getD_eq_getElem?_getD, List.getElem?_zipWith,
    List.getElem?_eq_getElem (by omega), List.getElem?_eq_getElem (by omega)]
  exact same i inside _ _ p q

theorem eval_eqBB : (eqBB a b).eval v = (x == y) := by
  have aLength : a.length = w := by simpa using left.length
  have bLength : b.length = w := by simpa using right.length
  rw [Bool.eq_iff_iff, eval_eqBB_iff v a b (by rw [aLength, bLength]), beq_iff_eq]
  constructor
  · intro same
    exact BitVec.eq_of_toNat_eq (by rw [← left.toNat, same, right.toNat])
  · rintro rfl
    refine List.ext_getElem (by simp [aLength, bLength]) fun i inside inside' => ?_
    have p := left.getD i
    have q := right.getD i
    rw [List.getD_eq_getElem?_getD, List.getElem?_eq_getElem (by omega)] at p q
    exact p.trans q.symm

theorem eval_flagBB (positive : 0 < w) (k : FlagKind) : (flagBB k a b).eval v = k.apply x y := by
  have aLength : a.length = w := by simpa using left.length
  have bLength : b.length = w := by simpa using right.length
  cases k with
  | comp => exact eval_eqBB v left right
  | ultbv =>
    rw [flagBB, Bool.eq_iff_iff, eval_uLessThanBB v (by omega) (by omega), left.toNat, right.toNat]
    simp [compares, FlagKind.apply, BitVec.ult]
  | sltbv =>
    rw [flagBB, Bool.eq_iff_iff, eval_sLessThanBB v positive left right]
    simp [FlagKind.apply]

theorem defaultSubBB_represents : Represents (values v (defaultSubBB a b)) (x - y) := by
  have aLength : a.length = w := by simpa using left.length
  have bLength : b.length = w := by simpa using right.length
  have length : (defaultSubBB a b).length = w := by
    rw [defaultSubBB, length_rippleCarryAdder _ _ _ (by simp [aLength, bLength]), aLength]
  have difference := value_subtract v a b (by rw [aLength, bLength])
  rw [left.toNat, right.toNat, aLength] at difference
  have bound := y.isLt
  refine Represents.of_mod (by rw [length_values, length]) (2 ^ w - y.toNat + x.toNat) ?_
    (BitVec.toNat_sub x y)
  have total : value (values v (defaultSubBB a b))
      + 2 ^ w * ((rippleCarryAdder a (negateBits b) mkTrue).2.eval v).toNat
      = 2 ^ w - y.toNat + x.toNat := by
    rw [defaultSubBB]
    omega
  rw [← total, Nat.add_mul_mod_self_left]

theorem addBB_represents : Represents (values v (naryBB .add a b)) (x + y) := by
  have aLength : a.length = w := by simpa using left.length
  have bLength : b.length = w := by simpa using right.length
  have sum := value_rippleCarryAdder v a b mkFalse (by rw [aLength, bLength])
  rw [left.toNat, right.toNat, aLength, eval_mkFalse, Bool.toNat_false, Nat.add_zero] at sum
  refine Represents.of_mod ?_ (x.toNat + y.toNat) ?_ (BitVec.toNat_add x y)
  · rw [naryBB, length_values, length_rippleCarryAdder _ _ _ (by rw [aLength, bLength]), aLength]
  · rw [← sum, Nat.add_mul_mod_self_left, naryBB]

theorem multBB_represents : Represents (values v (naryBB .mult a b)) (x * y) := by
  have aLength : a.length = w := by simpa using left.length
  have bLength : b.length = w := by simpa using right.length
  obtain ⟨length, product⟩ := value_shiftAddMultiplier v (a := a) (b := b) (by rw [aLength, bLength])
  rw [left.toNat, right.toNat, aLength] at product
  exact Represents.of_mod (by rw [naryBB, length_values, length, aLength]) _ product
    (BitVec.toNat_mul x y)

theorem naryBB_represents (k : NaryKind) : Represents (values v (naryBB k a b)) (k.apply x y) := by
  cases k with
  | and =>
    refine zipWith_represents v left right fun i _ p q first second => ?_
    rw [eval_mkAnd, first, second, NaryKind.apply, BitVec.getLsbD_and]
  | or =>
    refine zipWith_represents v left right fun i _ p q first second => ?_
    rw [eval_mkOr, first, second, NaryKind.apply, BitVec.getLsbD_or]
  | xor =>
    refine zipWith_represents v left right fun i _ p q first second => ?_
    rw [eval_mkXor, first, second, NaryKind.apply, BitVec.getLsbD_xor]
  | add => exact addBB_represents v left right
  | mult => exact multBB_represents v left right

theorem binaryBB_represents (positive : 0 < w) (k : BinaryKind)
    : Represents (values v (binaryBB k a b w)) (k.apply x y) := by
  cases k with
  | xnor =>
    refine zipWith_represents v left right fun i inside p q first second => ?_
    rw [eval_mkIff, first, second, BinaryKind.apply, BitVec.getLsbD_not, BitVec.getLsbD_xor]
    cases x.getLsbD i <;> cases y.getLsbD i <;> simp [inside]
  | sub => exact defaultSubBB_represents v left right
  | udiv => exact (udivUremBB_represents v positive left right).1
  | urem => exact (udivUremBB_represents v positive left right).2
  | shl => exact shlBB_represents v positive left right
  | lshr => exact lshrBB_represents v positive left right
  | ashr => exact ashrBB_represents v positive left right

/-- The two clauses of a bit say that it is the one of the chosen branch. -/
theorem defaultIteBB_represents {cond : Gate} {c : BitVec 1} (condition : cond.eval v = c.getLsbD 0)
    : Represents (values v (defaultIteBB cond a b)) (if c = 1#1 then x else y) := by
  have chosen : c = 1#1 ↔ cond.eval v = true := by
    rw [condition]
    rcases BitVec.eq_zero_or_eq_one c with rfl | rfl <;> decide
  refine zipWith_represents v left right fun i _ p q first second => ?_
  rw [eval_mkAnd, eval_mkOr, eval_mkOr, eval_mkNot, first, second]
  split
  · next isOne => simp [chosen.mp isOne]
  · next notOne => simp [Bool.not_eq_true _ ▸ mt chosen.mpr notOne]

end Binary

section Unary
variable {a : Bits} {x : BitVec w} (represents : Represents (values v a) x)
include represents

theorem negateBits_represents : Represents (values v (negateBits a)) (~~~x) := by
  have length : a.length = w := by simpa using represents.length
  refine ⟨by rw [length_values, length_negateBits, length], ?_⟩
  rw [values_negateBits, value_map_not, length_values, length, represents.toNat, BitVec.toNat_not]

theorem unaryBB_represents (k : UnaryKind)
    : Represents (values v (unaryBB k a w)) (k.apply x) := by
  cases k with
  | not => exact negateBits_represents v represents
  | neg =>
    have length : a.length = w := by simpa using represents.length
    have complement := negateBits_represents v represents
    have sum := value_rippleCarryAdder v (negateBits a) (makeZero w) mkTrue
      (by simp [makeZero, length])
    rw [complement.toNat, length_negateBits, length, values_makeZero, value_replicate_false,
      eval_mkTrue, Bool.toNat_true, Nat.add_zero] at sum
    refine Represents.of_mod ?_ ((~~~x).toNat + 1) ?_ ?_
    · rw [unaryBB, defaultNegBB, length_values,
        length_rippleCarryAdder _ _ _ (by simp [makeZero, length]), length_negateBits, length]
    · rw [← sum, Nat.add_mul_mod_self_left, unaryBB, defaultNegBB]
    · rw [UnaryKind.apply, BitVec.neg_eq_not_add, BitVec.toNat_add]
      simp

theorem defaultExtractBB_represents {high low : Nat}
    : Represents (values v (defaultExtractBB high low a)) (x.extractLsb high low) := by
  refine represents_map_range v fun i inside => ?_
  rw [← getD_values, represents.getD, BitVec.getLsbD_extractLsb]
  simp [inside]

theorem defaultSignExtendBB_represents (amount : Nat)
    : Represents (values v (defaultSignExtendBB amount a)) (x.signExtend (w + amount)) := by
  have length : a.length = w := by simpa using represents.length
  have sign : (a.getD (a.length - 1) mkFalse).eval v = x.msb := by
    rw [← getD_values, represents.getD, length, BitVec.msb_eq_getLsbD_last]
  refine Represents.of_getD (by simp [defaultSignExtendBB, length]) fun i inside => ?_
  rw [getD_values, BitVec.getLsbD_signExtend, defaultSignExtendBB, List.getD_eq_getElem?_getD]
  rcases Nat.lt_or_ge i w with low | high
  · rw [List.getElem?_append_left (by omega), ← List.getD_eq_getElem?_getD, ← getD_values,
      represents.getD]
    simp [inside, low]
  · rw [List.getElem?_append_right (by omega), List.getElem?_replicate_of_lt (by omega),
      Option.getD_some, sign]
    simp [inside, Nat.not_lt.mpr high]

/-- The bits of the last part of a concatenation come first. -/
theorem append_represents {u : Nat} {b : Bits} {y : BitVec u} (right : Represents (values v b) y)
    : Represents (values v (b ++ a)) (x ++ y) := by
  have bLength : b.length = u := by simpa using right.length
  have aLength : a.length = w := by simpa using represents.length
  refine ⟨by simp [aLength, bLength, Nat.add_comm], ?_⟩
  rw [values_append, value_append, represents.toNat, right.toNat, length_values, bLength,
    BitVec.toNat_append, ← Nat.shiftLeft_add_eq_or_of_lt y.isLt, Nat.shiftLeft_eq, Nat.mul_comm,
    Nat.add_comm]

end Unary

end Ava6.Bv.Bitblast
