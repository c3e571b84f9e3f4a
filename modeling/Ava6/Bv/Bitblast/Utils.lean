import Ava6.Bv.Bitblast.Gates
import Ava6.Library.BitList
import Ava6.Library.BitVecOrder
import Mathlib.Data.Nat.ModEq

/-! The circuits of the bit-blaster: adders, the multiplier and the comparisons, each with
the number its output denotes.
-/

namespace Ava6.Bv.Bitblast

open Ava6.Library.BitList

variable (v : Valuation)

def negateBits (bits : Bits) : Bits := bits.map mkNot

/-- Whether all bits are the false constant; the test is on the nodes. -/
def isZero (bits : Bits) : Bool :=
  bits.all fun
    | .const .false => true
    | _ => false

def rshift (bits : Bits) (amount : Nat) : Bits :=
  bits.drop amount ++ List.replicate amount mkFalse

def lshift (bits : Bits) (amount : Nat) : Bits :=
  List.replicate amount mkFalse ++ bits.take (bits.length - amount)

def makeZero (width : Nat) : Bits := List.replicate width mkFalse

@[simp] theorem values_makeZero (width : Nat) : values v (makeZero width) = List.replicate width false := by
  simp [values, makeZero]

@[simp]
theorem values_negateBits (bits : Bits) : values v (negateBits bits) = (values v bits).map (! ·) := by
  simp [values, negateBits]

@[simp] theorem length_negateBits (bits : Bits) : (negateBits bits).length = bits.length := by
  simp [negateBits]

theorem value_of_isZero {bits : Bits} (zero : isZero bits = true) : value (values v bits) = 0 := by
  rw [value_eq_zero_iff]
  intro b member
  obtain ⟨gate, listed, rfl⟩ := List.mem_map.mp member
  have clear := List.all_eq_true.mp zero gate listed
  match gate, clear with
  | .const .false, _ => rfl

/-- Shifting right by one halves. -/
theorem value_rshift_one (bits : Bits)
    : value (values v (rshift bits 1)) = value (values v bits) / 2 := by
  cases bits with
  | nil => simp [rshift]
  | cons a rest =>
    have bound := Bool.toNat_le (a.eval v)
    have tail : value (values v (rshift (a :: rest) 1)) = value (values v rest) := by
      simp [rshift, value_append]
    rw [tail, values_cons, value_cons]
    omega

/-- Shifting left by one doubles what stays in range. -/
theorem value_lshift_one (bits : Bits) (nonempty : bits ≠ [])
    (room : 2 * value (values v bits) < 2 ^ bits.length)
    : value (values v (lshift bits 1)) = 2 * value (values v bits) := by
  obtain ⟨init, last, rfl⟩ := List.eq_nil_or_concat bits |>.resolve_left nonempty
  rw [List.concat_eq_append] at *
  have kept : lshift (init ++ [last]) 1 = mkFalse :: init := by
    simp [lshift]
  have bound := value_lt (values v init)
  rw [length_values] at bound
  simp only [kept, values_append, values_cons, values_nil, value_append, value_cons, value_nil,
    length_values, List.length_append, List.length_cons, List.length_nil, eval_mkFalse,
    Bool.toNat_false] at room ⊢
  -- the topmost bit cannot be set, or the doubled value would not fit
  have clear : (last.eval v).toNat = 0 := by
    rw [Nat.pow_succ] at room
    cases value : last.eval v with
    | false => rfl
    | true => simp only [value, Bool.toNat_true] at room; omega
  rw [clear]
  omega

/-- The sum bits and the carry-out of a ripple carry adder. -/
def rippleCarryAdder : Bits → Bits → Gate → Bits × Gate
  | x :: a, y :: b, carry =>
      let sum := mkXor (mkXor x y) carry
      let next := mkOr (mkAnd x y) (mkAnd (mkXor x y) carry)
      let rest := rippleCarryAdder a b next
      (sum :: rest.1, rest.2)
  | _, _, carry => ([], carry)

theorem length_rippleCarryAdder (a b : Bits) (carry : Gate) (same : a.length = b.length)
    : (rippleCarryAdder a b carry).1.length = a.length := by
  induction a generalizing b carry with
  | nil => rfl
  | cons x a ih =>
    cases b with
    | nil => simp at same
    | cons y b => simp [rippleCarryAdder, ih b _ (by simpa using same)]

/-- One stage of an adder. -/
theorem fullAdder (x y c : Bool)
    : ((x ^^ y) ^^ c).toNat + 2 * (x && y || (x ^^ y) && c).toNat
      = x.toNat + y.toNat + c.toNat := by
  cases x <;> cases y <;> cases c <;> rfl

/-- Sum and carry-out together denote the sum of the inputs, by induction on the bits. -/
theorem value_rippleCarryAdder (a b : Bits) (carry : Gate) (same : a.length = b.length)
    : value (values v (rippleCarryAdder a b carry).1)
        + 2 ^ a.length * ((rippleCarryAdder a b carry).2.eval v).toNat
      = value (values v a) + value (values v b) + (carry.eval v).toNat := by
  induction a generalizing b carry with
  | nil =>
    obtain rfl : b = [] := List.length_eq_zero_iff.mp same.symm
    simp [rippleCarryAdder]
  | cons x a ih =>
    cases b with
    | nil => simp at same
    | cons y b =>
      have rest := ih b (mkOr (mkAnd x y) (mkAnd (mkXor x y) carry)) (by simpa using same)
      have stage := fullAdder (x.eval v) (y.eval v) (carry.eval v)
      simp only [rippleCarryAdder, values_cons, value_cons, List.length_cons, Nat.pow_succ,
        eval_mkXor, eval_mkOr, eval_mkAnd] at rest ⊢
      rw [Nat.mul_comm (2 ^ a.length) 2, Nat.mul_assoc]
      omega

/-- Adding the complement and one subtracts; the carry-out says that nothing was borrowed. -/
theorem value_subtract (a b : Bits) (same : a.length = b.length)
    : value (values v (rippleCarryAdder a (negateBits b) mkTrue).1)
        + 2 ^ a.length * ((rippleCarryAdder a (negateBits b) mkTrue).2.eval v).toNat
        + value (values v b)
      = value (values v a) + 2 ^ a.length := by
  have sum := value_rippleCarryAdder v a (negateBits b) mkTrue (by simp [same])
  have bound := value_lt (values v b)
  rw [values_negateBits, value_map_not, eval_mkTrue, Bool.toNat_true] at sum
  rw [length_values, ← same] at sum bound
  omega

/-- The inner loop of the multiplier: one row, added to the upper part of the result. -/
def addRow (bk : Gate) : Bits → Bits → Gate → Bits
  | r :: res, x :: a, carryIn =>
      let aj := mkAnd bk x
      let carryOut := mkOr (mkAnd r aj) (mkAnd (mkXor r aj) carryIn)
      mkXor (mkXor r aj) carryIn :: addRow bk res a carryOut
  | _, _, _ => []

/-- The outer loop of the multiplier over the rows from `k` on. -/
def addRows (a : Bits) : Nat → Bits → Bits → Bits
  | _, [], res => res
  | k, bk :: b, res => addRows a (k + 1) b (res.take k ++ addRow bk (res.drop k) a mkFalse)

def shiftAddMultiplier (a : Bits) : Bits → Bits
  | [] => []
  | b₀ :: b => addRows a 1 b (a.map (mkAnd b₀))

theorem length_addRow (bk : Gate) (res a : Bits) (carry : Gate) (short : res.length ≤ a.length)
    : (addRow bk res a carry).length = res.length := by
  induction res generalizing a carry with
  | nil => simp [addRow]
  | cons r res ih =>
    cases a with
    | nil => simp at short
    | cons x a => simp [addRow, ih a _ (by simpa using short)]

/-- A row adds the multiplicand when its bit is set, up to the width of the result. -/
theorem value_addRow (bk : Gate) (res a : Bits) (carry : Gate) (short : res.length ≤ a.length)
    : value (values v (addRow bk res a carry))
      ≡ value (values v res) + (bk.eval v).toNat * value (values v a) + (carry.eval v).toNat
        [MOD 2 ^ res.length] := by
  induction res generalizing a carry with
  | nil => exact Nat.modEq_one
  | cons r res ih =>
    cases a with
    | nil => simp at short
    | cons x a =>
      have rest := ih a (mkOr (mkAnd r (mkAnd bk x)) (mkAnd (mkXor r (mkAnd bk x)) carry))
        (by simpa using short)
      have stage := fullAdder (r.eval v) (bk.eval v && x.eval v) (carry.eval v)
      have product : (bk.eval v && x.eval v).toNat = (bk.eval v).toNat * (x.eval v).toNat := by
        cases bk.eval v <;> cases x.eval v <;> rfl
      simp only [eval_mkXor, eval_mkOr, eval_mkAnd] at rest
      simp only [addRow, values_cons, value_cons, List.length_cons, eval_mkXor, eval_mkAnd]
      rw [Nat.pow_succ']
      refine (Nat.ModEq.add_left _ (Nat.ModEq.mul_left' 2 rest)).trans (congrArg (· % _) ?_)
      rw [product] at stage
      generalize (r.eval v && (bk.eval v && x.eval v)
        || (r.eval v ^^ (bk.eval v && x.eval v)) && carry.eval v).toNat = out at *
      calc (r.eval v ^^ (bk.eval v && x.eval v) ^^ carry.eval v).toNat
            + 2 * (value (values v res) + (bk.eval v).toNat * value (values v a) + out)
          = ((r.eval v ^^ (bk.eval v && x.eval v) ^^ carry.eval v).toNat + 2 * out)
            + 2 * (value (values v res) + (bk.eval v).toNat * value (values v a)) := by ring
        _ = _ := by rw [stage]; ring

/-- A row from position `k` on adds the shifted multiplicand. -/
theorem value_row {a res : Bits} (bk : Gate) {k : Nat} (same : res.length = a.length)
    (inside : k ≤ a.length)
    : (res.take k ++ addRow bk (res.drop k) a mkFalse).length = a.length
      ∧ value (values v (res.take k ++ addRow bk (res.drop k) a mkFalse))
        ≡ value (values v res) + 2 ^ k * ((bk.eval v).toNat * value (values v a))
          [MOD 2 ^ a.length] := by
  have short : (res.drop k).length ≤ a.length := by simp [same]
  have low : (res.take k).length = k := by simp [same, inside]
  refine ⟨?_, ?_⟩
  · simp [length_addRow bk _ a mkFalse short, same, inside]
  · have row := value_addRow v bk (res.drop k) a mkFalse short
    have whole : value (values v res)
        = value (values v (res.take k)) + 2 ^ k * value (values v (res.drop k)) := by
      conv => lhs; rw [← List.take_append_drop k res, values_append, value_append, length_values, low]
    have width : 2 ^ a.length = 2 ^ k * 2 ^ (res.drop k).length := by
      rw [← Nat.pow_add, List.length_drop, same]
      congr 1
      omega
    rw [values_append, value_append, length_values, low, whole, width]
    simp only [eval_mkFalse, Bool.toNat_false, Nat.add_zero] at row
    refine (Nat.ModEq.add_left _ (Nat.ModEq.mul_left' (2 ^ k) row)).trans (congrArg (· % _) ?_)
    ring

theorem value_addRows (a b : Bits) (k : Nat) {res : Bits} (same : res.length = a.length)
    (fits : k + b.length ≤ a.length)
    : (addRows a k b res).length = a.length
      ∧ value (values v (addRows a k b res))
        ≡ value (values v res) + 2 ^ k * (value (values v b) * value (values v a))
          [MOD 2 ^ a.length] := by
  induction b generalizing k res with
  | nil => simp [addRows, same, Nat.ModEq.rfl]
  | cons bk b ih =>
    rw [List.length_cons] at fits
    obtain ⟨length, row⟩ := value_row v bk (k := k) same (by omega)
    obtain ⟨total, rest⟩ := ih (k := k + 1) length (by omega)
    refine ⟨total, rest.trans ((Nat.ModEq.add_right _ row).trans (congrArg (· % _) ?_))⟩
    rw [values_cons, value_cons, Nat.pow_succ]
    ring

theorem value_map_mkAnd (b₀ : Gate) (a : Bits)
    : value (values v (a.map (mkAnd b₀))) = (b₀.eval v).toNat * value (values v a) := by
  induction a with
  | nil => simp
  | cons x a ih =>
    rw [List.map_cons, values_cons, value_cons, ih, values_cons, value_cons, eval_mkAnd]
    cases b₀.eval v <;> simp

/-- The multiplier denotes the product up to the width. -/
theorem value_shiftAddMultiplier {a b : Bits} (same : b.length = a.length)
    : (shiftAddMultiplier a b).length = a.length
      ∧ value (values v (shiftAddMultiplier a b))
        ≡ value (values v a) * value (values v b) [MOD 2 ^ a.length] := by
  cases b with
  | nil => simp [shiftAddMultiplier, ← same, Nat.modEq_one]
  | cons b₀ b =>
    rw [List.length_cons] at same
    obtain ⟨length, rows⟩ := value_addRows v a b 1
      (by simp : (a.map (mkAnd b₀)).length = a.length) (by omega)
    refine ⟨length, rows.trans (congrArg (· % _) ?_)⟩
    rw [value_map_mkAnd, values_cons, value_cons]
    ring

/-- The loop of the unsigned comparison over the bits above the first. -/
def uLessThanLoop : Bits → Bits → Gate → Gate
  | x :: a, y :: b, res =>
      uLessThanLoop a b (mkOr (mkAnd (mkIff x y) res) (mkAnd (mkNot x) y))
  | _, _, res => res

def uLessThanBB (a b : Bits) (orEqual : Bool) : Gate :=
  match a, b with
  | x :: a, y :: b =>
      let res := mkAnd (mkNot x) y
      uLessThanLoop a b (if orEqual then mkOr res (mkIff x y) else res)
  | _, _ => mkFalse

/-- The comparison `<` or `≤`. -/
def compares (orEqual : Bool) (m n : Nat) : Prop := if orEqual then m ≤ n else m < n

/-- The loop compares the upper bits first and falls back on the result below. -/
theorem eval_uLessThanLoop (a b : Bits) (same : a.length = b.length) (orEqual : Bool) (m n k : Nat)
    (mLess : m < 2 ^ k) (nLess : n < 2 ^ k) (res : Gate)
    (below : res.eval v = true ↔ compares orEqual m n)
    : (uLessThanLoop a b res).eval v = true
      ↔ compares orEqual (m + 2 ^ k * value (values v a)) (n + 2 ^ k * value (values v b)) := by
  induction a generalizing b m n k res with
  | nil =>
    obtain rfl : b = [] := List.length_eq_zero_iff.mp same.symm
    simpa [uLessThanLoop] using below
  | cons x a ih =>
    cases b with
    | nil => simp at same
    | cons y b =>
      have bits := ih b (by simpa using same) (m + 2 ^ k * (x.eval v).toNat)
        (n + 2 ^ k * (y.eval v).toNat) (k + 1)
        (by rw [Nat.pow_succ]; cases x.eval v <;> simp <;> omega)
        (by rw [Nat.pow_succ]; cases y.eval v <;> simp <;> omega)
        (mkOr (mkAnd (mkIff x y) res) (mkAnd (mkNot x) y)) ?_
      · rw [uLessThanLoop, bits]
        have expand (m' : Nat) (bit : Bool) (rest : Nat)
            : m' + 2 ^ k * bit.toNat + 2 ^ (k + 1) * rest = m' + 2 ^ k * (bit.toNat + 2 * rest) := by
          rw [Nat.pow_succ]
          ring
        rw [expand, expand, values_cons, value_cons, values_cons, value_cons]
      · simp only [eval_mkOr, eval_mkAnd, eval_mkIff, eval_mkNot, Bool.or_eq_true, Bool.and_eq_true,
          beq_iff_eq, below, compares]
        cases x.eval v <;> cases y.eval v <;> cases orEqual <;> simp <;> omega

theorem eval_uLessThanBB {a b : Bits} (same : a.length = b.length) (nonempty : 0 < a.length)
    (orEqual : Bool)
    : (uLessThanBB a b orEqual).eval v = true
      ↔ compares orEqual (value (values v a)) (value (values v b)) := by
  match a, b with
  | x :: a, y :: b =>
    rw [uLessThanBB]
    have first := eval_uLessThanLoop v a b (by simpa using same) orEqual (x.eval v).toNat
      (y.eval v).toNat 1 (by cases x.eval v <;> simp) (by cases y.eval v <;> simp)
      (if orEqual then mkOr (mkAnd (mkNot x) y) (mkIff x y) else mkAnd (mkNot x) y) ?_
    · simpa using first
    · cases orEqual <;>
        simp only [compares, Bool.false_eq_true, if_false, if_true, eval_mkOr, eval_mkAnd,
          eval_mkNot, eval_mkIff, Bool.or_eq_true, Bool.and_eq_true, beq_iff_eq] <;>
        cases x.eval v <;> cases y.eval v <;> simp
  | [], _ => simp at nonempty
  | _ :: _, [] => simp at same

/-- Signed comparison: by the signs, then by the remaining bits. -/
def sLessThanBB (a b : Bits) (orEqual : Bool) : Gate :=
  let n := a.length - 1
  let an := a.getD n mkFalse
  let bn := b.getD n mkFalse
  if a.length = 1 then
    if orEqual then mkOr (mkIff an bn) (mkAnd an (mkNot bn)) else mkAnd an (mkNot bn)
  else
    let ures := uLessThanBB (a.take n) (b.take n) orEqual
    mkOr (mkAnd (mkIff an bn) ures) (mkAnd an (mkNot bn))

/-- A nonempty vector is its lower bits and its topmost bit. -/
theorem value_split_last (bits : Bits) {n : Nat} (length : bits.length = n + 1)
    : value (values v bits)
      = value (values v (bits.take n)) + 2 ^ n * ((bits.getD n mkFalse).eval v).toNat := by
  have parts : bits = bits.take n ++ [bits.getD n mkFalse] := by
    have last : bits.drop n = [bits.getD n mkFalse] := by
      rw [List.drop_eq_getElem_cons (by omega), List.drop_eq_nil_of_le (by omega),
        List.getD_eq_getElem?_getD, List.getElem?_eq_getElem (by omega), Option.getD_some]
    rw [← last, List.take_append_drop]
  conv => lhs; rw [parts]
  rw [values_append, value_append, length_values, List.length_take, length,
    Nat.min_eq_left (Nat.le_succ n), values_cons, values_nil, value_cons, value_nil, Nat.mul_zero,
    Nat.add_zero]

theorem eval_sLessThanBB {w : Nat} {a b : Bits} {x y : BitVec w} (positive : 0 < w)
    (left : Represents (values v a) x) (right : Represents (values v b) y) (orEqual : Bool)
    : (sLessThanBB a b orEqual).eval v = true
      ↔ (if orEqual then x.sle y else x.slt y) = true := by
  obtain ⟨n, rfl⟩ := Nat.exists_eq_succ_of_ne_zero positive.ne'
  have aLength : a.length = n + 1 := by simpa using left.length
  have bLength : b.length = n + 1 := by simpa using right.length
  have xValue := value_split_last v a aLength
  have yValue := value_split_last v b bLength
  have xLow := value_lt (values v (a.take n))
  have yLow := value_lt (values v (b.take n))
  rw [left.toNat] at xValue
  rw [right.toNat] at yValue
  simp only [length_values, List.length_take, aLength, bLength,
    Nat.min_eq_left (Nat.le_succ n)] at xLow yLow
  have signed : (if orEqual then x.sle y else x.slt y) = true
      ↔ (2 ^ n ≤ x.toNat ∧ y.toNat < 2 ^ n)
        ∨ (compares orEqual x.toNat y.toNat ∧ (y.toNat < 2 ^ n ∨ 2 ^ n ≤ x.toNat)) := by
    have lt := Ava6.Library.BitVecOrder.slt_iff (x := x) (y := y) positive
    have le := Ava6.Library.BitVecOrder.sle_iff (x := x) (y := y) positive
    cases orEqual <;> simp_all [compares]
  rw [signed]
  unfold sLessThanBB
  simp only [aLength, Nat.add_sub_cancel, Nat.add_eq_right]
  have lower := fun wide : n ≠ 0 => eval_uLessThanBB v (a := a.take n) (b := b.take n)
    (by simp [aLength, bLength]) (by simp [aLength]; omega) orEqual
  generalize a.getD n mkFalse = an at *
  generalize b.getD n mkFalse = bn at *
  split
  · next narrow =>
    subst narrow
    simp only [List.take_zero, values_nil, value_nil, Nat.zero_add, pow_zero, Nat.one_mul]
      at xValue yValue
    rw [xValue, yValue]
    cases orEqual <;>
      simp only [if_true, if_false, Bool.false_eq_true, eval_mkOr, eval_mkAnd, eval_mkIff,
        eval_mkNot, compares] <;>
      cases an.eval v <;> cases bn.eval v <;> simp
  · next wide =>
    simp only [eval_mkOr, eval_mkAnd, eval_mkIff, eval_mkNot, Bool.or_eq_true, Bool.and_eq_true,
      beq_iff_eq, lower wide]
    rw [xValue, yValue]
    cases orEqual <;> cases an.eval v <;> cases bn.eval v <;> simp [compares] <;> omega

end Ava6.Bv.Bitblast
