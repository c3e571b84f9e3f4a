import Mathlib.Data.List.Range
import Mathlib.Tactic.IntervalCases
import Ava6.Bv.Rewriter.Node
import Ava6.Library.ProductBits

/-! Elimination of the predicates that tell whether a multiplication overflows. The formulas look for two bits of the
factors whose positions add up to the bound, and leave the rest to one bit of a product of one bit more.
-/

namespace Ava6.Bv.Rewriter

open Library

namespace UmuloEliminate

structure State where
  tmp : List Node
  uppc : Node

/-- One round of the loop. -/
def step (node0 node1 : Node) (size : Nat) (s : State) (i : Nat) : State where
  tmp := s.tmp ++ [mkNode .and [mkExtract node1 i i, s.uppc]]
  uppc := mkNode .or [mkExtract node0 (size - 1 - i) (size - 1 - i), s.uppc]

def terms (node0 node1 : Node) (size : Nat) : List Node :=
  ((List.range' 1 (size - 1)).foldl (step node0 node1 size) ⟨[], mkExtract node0 (size - 1) (size - 1)⟩).tmp

def apply (node0 node1 : Node) : Formula :=
  let size := node0.getSize
  if size = 1 then .const false
  else
    let bvZero := mkZero 1
    let zext_t1 := mkNode .concat [bvZero, node0]
    let zext_t2 := mkNode .concat [bvZero, node1]
    let mul := mkNode .mult [zext_t1, zext_t2]
    .equal (mkNode .or (terms node0 node1 size ++ [mkExtract mul size size])) (mkOne 1)

end UmuloEliminate

namespace SmuloEliminate

structure State where
  ppc : Node
  res : Node

def step (xor0 xor1 : Node) (size : Nat) (s : State) (i : Nat) : State :=
  let ppc := mkNode .or [s.ppc, mkExtract xor0 (size - 2 - i) (size - 2 - i)]
  ⟨ppc, mkNode .or [s.res, mkNode .and [mkExtract xor1 (i + 1) (i + 1), ppc]]⟩

def pairs (xor0 xor1 : Node) (size : Nat) : Node :=
  let ppc := mkExtract xor0 (size - 2) (size - 2)
  ((List.range' 1 (size - 3)).foldl (step xor0 xor1 size) ⟨ppc, mkNode .and [mkExtract xor1 1 1, ppc]⟩).res

def apply (node0 node1 : Node) : Formula :=
  let size := node0.getSize
  let one := mkOne 1
  if size = 1 then .equal (mkNode .and [node0, node1]) one
  else
    let mul := mkNode .mult [mkSignExtend node0 1, mkSignExtend node1 1]
    let topBits := mkNode .xor [mkExtract mul size size, mkExtract mul (size - 1) (size - 1)]
    if size = 2 then .equal topBits one
    else
      let sign0 := mkExtract node0 (size - 1) (size - 1)
      let sign1 := mkExtract node1 (size - 1) (size - 1)
      let xor0 := mkNode .xor [node0, mkSignExtend sign0 (size - 1)]
      let xor1 := mkNode .xor [node1, mkSignExtend sign1 (size - 1)]
      .equal (mkNode .or [pairs xor0 xor1 size, topBits]) one

end SmuloEliminate

-- Terms of one bit

/-- A loop over consecutive numbers keeps what each round takes from one number to the next. -/
theorem foldl_range'_invariant {σ : Type} (P : Nat → σ → Prop) (step : σ → Nat → σ) {start count : Nat} {s : σ}
    (initial : P start s)
    (round : ∀ i s, start ≤ i → i < start + count → P i s → P (i + 1) (step s i))
    : P (start + count) ((List.range' start count).foldl step s) := by
  induction count generalizing start s with
  | zero => exact initial
  | succ count ih =>
      rw [List.range'_succ, List.foldl_cons, Nat.add_succ, ← Nat.succ_add]
      exact ih (round start s (Nat.le_refl _) (by omega) initial)
        (fun i s from' below => round i s (by omega) (by omega))

/-- A term of one bit that says whether the proposition is true. -/
structure Flag (V : Valuation) (n : Node) (p : Prop) : Prop where
  width : (n.value V).width = 1
  bit : (n.value V).bit 0 = true ↔ p

section Flags

variable {V : Valuation} {n m : Node} {p q : Prop}

theorem Flag.congr (flag : Flag V n p) (same : p ↔ q) : Flag V n q := ⟨flag.width, flag.bit.trans same⟩

theorem Flag.holds (flag : Flag V n p) : (Formula.equal n (mkOne 1)).holds V = true ↔ p := by
  rw [← flag.bit, Formula.holds, beq_iff_eq]
  have oneBit : ((mkOne 1).value V).bit 0 = true := by
    rw [mkOne, value_mkConst]
    decide
  constructor
  · intro same
    rw [same]
    exact oneBit
  · intro isSet
    refine Vec.ext_bit flag.width (fun i => ?_)
    match i with
    | 0 => rw [isSet, oneBit]
    | i + 1 =>
        rw [Vec.bit_of_ge _ (by rw [flag.width]; omega), Vec.bit_of_ge ((mkOne 1).value V) (by simp [mkOne])]

theorem Flag.extract (n : Node) (i : Nat) : Flag V (mkExtract n i i) ((n.value V).bit i = true) := by
  refine ⟨by simp, ?_⟩
  rw [value_mkExtract, Vec.bit_extract, Nat.sub_self, decide_eq_true (Nat.le_refl 0), Bool.true_and, Nat.add_zero]

theorem Flag.and (first : Flag V n p) (second : Flag V m q) : Flag V (mkNode .and [n, m]) (p ∧ q) := by
  rw [← first.bit, ← second.bit, ← Bool.and_eq_true, ← Vec.bitwise_and.bit_zipWith (by rw [first.width]; decide)]
  exact ⟨by rw [value_mkNode]; exact first.width, by rw [value_mkNode]; exact Iff.rfl⟩

theorem Flag.or (first : Flag V n p) (second : Flag V m q) : Flag V (mkNode .or [n, m]) (p ∨ q) := by
  rw [← first.bit, ← second.bit, ← Bool.or_eq_true, ← Vec.bitwise_or.bit_zipWith (by rw [first.width]; decide)]
  exact ⟨by rw [value_mkNode]; exact first.width, by rw [value_mkNode]; exact Iff.rfl⟩

theorem Flag.xor (first : Flag V n p) (second : Flag V m q) : Flag V (mkNode .xor [n, m]) (¬(p ↔ q)) := by
  rw [← first.bit, ← second.bit, ← Bool.eq_iff_iff, ← ne_eq, ← bne_iff_ne, Bool.bne_eq_xor,
    ← Vec.bitwise_xor.bit_zipWith (by rw [first.width]; decide)]
  exact ⟨by rw [value_mkNode]; exact first.width, by rw [value_mkNode]; exact Iff.rfl⟩

/-- Terms of one bit of which some is set as the proposition says. -/
structure Flags (V : Valuation) (ns : List Node) (p : Prop) : Prop where
  width : ∀ n ∈ ns, (n.value V).width = 1
  bit : (∃ n ∈ ns, (n.value V).bit 0 = true) ↔ p

theorem Flags.nil (V : Valuation) : Flags V [] False := ⟨by simp, by simp⟩

theorem Flags.congr {ns : List Node} (flags : Flags V ns p) (same : p ↔ q) : Flags V ns q :=
  ⟨flags.width, flags.bit.trans same⟩

theorem Flags.append {ns : List Node} (flags : Flags V ns p) (flag : Flag V n q) : Flags V (ns ++ [n]) (p ∨ q) := by
  refine ⟨fun m member => ?_, ?_⟩
  · rcases List.mem_append.mp member with old | new
    · exact flags.width m old
    · rw [List.mem_singleton.mp new]
      exact flag.width
  · rw [← flags.bit, ← flag.bit]
    simp [or_and_right, exists_or]

theorem bit_foldl_or (first : Vec) (rest : List Vec) (positive : 0 < first.width)
    : (rest.foldl (Vec.zipWith (fun _ x y => x ||| y)) first).bit 0 = true
      ↔ first.bit 0 = true ∨ ∃ v ∈ rest, v.bit 0 = true := by
  induction rest generalizing first with
  | nil => simp
  | cons v rest ih =>
      rw [List.foldl_cons, ih (Vec.zipWith (fun _ x y => x ||| y) first v) positive, Vec.bitwise_or.bit_zipWith positive, Bool.or_eq_true, or_assoc]
      simp

theorem Flags.or {ns : List Node} (flags : Flags V ns p) (nonempty : ns ≠ []) : Flag V (mkNode .or ns) p := by
  obtain ⟨first, rest, rfl⟩ := List.exists_cons_of_ne_nil nonempty
  have firstWidth := flags.width first (by simp)
  refine ⟨?_, ?_⟩
  · rw [value_mkNode]
    exact (width_nary _ _ _).trans firstWidth
  · rw [← flags.bit, value_mkNode]
    change ((rest.map (Node.value V)).foldl _ (first.value V)).bit 0 = true ↔ _
    rw [bit_foldl_or _ _ (by rw [firstWidth]; decide)]
    simp

end Flags

/-- One of the highest bits below the bound is set. -/
def UpperBit (v : Vec) (t count : Nat) : Prop := ∃ j, t - count ≤ j ∧ j < t ∧ v.bit j = true

/-- One of the bits between the positions is set, as is one that makes it up to the bound. -/
def PairBelow (v v' : Vec) (t stop : Nat) : Prop := ∃ k, 1 ≤ k ∧ k < stop ∧ v'.bit k = true ∧ UpperBit v t k

theorem upperBit_one {v : Vec} {t : Nat} (positive : 0 < t) : UpperBit v t 1 ↔ v.bit (t - 1) = true := by
  constructor
  · rintro ⟨j, atLeast, below, isSet⟩
    rwa [show t - 1 = j by omega]
  · exact fun isSet => ⟨t - 1, Nat.le_refl _, by omega, isSet⟩

theorem upperBit_succ {v : Vec} {t count : Nat} (inside : count < t)
    : UpperBit v t (count + 1) ↔ v.bit (t - 1 - count) = true ∨ UpperBit v t count := by
  constructor
  · rintro ⟨j, atLeast, below, isSet⟩
    rcases Nat.eq_or_lt_of_le atLeast with isLowest | above
    · left
      rwa [show t - 1 - count = j by omega]
    · exact Or.inr ⟨j, by omega, below, isSet⟩
  · rintro (isSet | ⟨j, atLeast, below, isSet⟩)
    · exact ⟨t - 1 - count, by omega, by omega, isSet⟩
    · exact ⟨j, by omega, below, isSet⟩

theorem not_pairBelow_one {v v' : Vec} {t : Nat} : ¬PairBelow v v' t 1 := by
  rintro ⟨k, one, below, -⟩
  omega

theorem pairBelow_succ {v v' : Vec} {t stop : Nat} (positive : 1 ≤ stop)
    : PairBelow v v' t (stop + 1) ↔ PairBelow v v' t stop ∨ v'.bit stop = true ∧ UpperBit v t stop := by
  constructor
  · rintro ⟨k, one, below, pair⟩
    rcases Nat.lt_succ_iff_lt_or_eq.mp below with earlier | rfl
    · exact Or.inl ⟨k, one, earlier, pair⟩
    · exact Or.inr pair
  · rintro (⟨k, one, below, pair⟩ | pair)
    · exact ⟨k, one, by omega, pair⟩
    · exact ⟨stop, positive, by omega, pair⟩

theorem lt_of_testBit {k t i : Nat} (small : k < 2 ^ t) (isSet : k.testBit i = true) : i < t := by
  by_contra outside
  have large : 2 ^ i ≤ k := Nat.ge_two_pow_of_testBit isSet
  have power : 2 ^ t ≤ 2 ^ i := Nat.pow_le_pow_right Nat.two_pos (by omega)
  omega

/-- The pairs that the loops look for are those of the bound. -/
theorem pairBelow_iff {v v' : Vec} {t : Nat} (small : v.toNat < 2 ^ t) (small' : v'.toNat < 2 ^ t)
    : PairBelow v v' t t ↔ BitPair v.toNat v'.toNat t := by
  constructor
  · rintro ⟨k, -, -, isSet, j, atLeast, -, isUpper⟩
    exact ⟨k, j, by omega, isUpper, isSet⟩
  · rintro ⟨k, j, enough, isUpper, isSet⟩
    have jBelow := lt_of_testBit small isUpper
    exact ⟨k, by omega, lt_of_testBit small' isSet, isSet, j, by omega, jBelow, isUpper⟩

-- Unsigned products

section Unsigned

variable (V : Valuation) {a b : Node}

/-- Before a round, the running disjunction has seen the bits from the end of the first factor, and the terms pair
them with the bits of the second one.
-/
structure UmuloEliminate.Seen (V : Valuation) (a b : Node) (i : Nat) (s : UmuloEliminate.State) : Prop where
  uppc : Flag V s.uppc (UpperBit (a.value V) a.getSize i)
  tmp : Flags V s.tmp (PairBelow (a.value V) (b.value V) a.getSize i)

theorem UmuloEliminate.seen_step {i : Nat} {s : State} (fromOne : 1 ≤ i) (below : i < a.getSize)
    (seen : Seen V a b i s)
    : Seen V a b (i + 1) (step a b a.getSize s i) := by
  constructor
  · exact ((Flag.extract a (a.getSize - 1 - i)).or seen.uppc).congr (upperBit_succ below).symm
  · exact (seen.tmp.append ((Flag.extract b i).and seen.uppc)).congr (pairBelow_succ fromOne).symm

/-- The terms of the loop look for a pair of bits whose positions add up to the width. -/
theorem UmuloEliminate.flags_terms (positive : 0 < a.getSize) (aSmall : (a.value V).toNat < 2 ^ a.getSize)
    (bSmall : (b.value V).toNat < 2 ^ a.getSize)
    : Flags V (terms a b a.getSize) (BitPair (a.value V).toNat (b.value V).toNat a.getSize) := by
  have initial : Seen V a b 1 ⟨[], mkExtract a (a.getSize - 1) (a.getSize - 1)⟩ :=
    ⟨(Flag.extract a (a.getSize - 1)).congr (upperBit_one positive).symm,
      (Flags.nil V).congr (iff_of_false id not_pairBelow_one)⟩
  have loop : Seen V a b (1 + (a.getSize - 1)) ((List.range' 1 (a.getSize - 1)).foldl (step a b a.getSize) _) :=
    foldl_range'_invariant (Seen V a b) (step a b a.getSize) initial
      (fun i s fromOne below seen => seen_step V fromOne (by omega) seen)
  have final := loop.tmp
  rw [Nat.add_sub_cancel' positive] at final
  exact final.congr (pairBelow_iff aSmall bSmall)

theorem toNat_zeroConcat (n : Node)
    : ((mkNode .concat [mkZero 1, n]).value V).toNat = (n.value V).toNat
      ∧ ((mkNode .concat [mkZero 1, n]).value V).width = n.getSize + 1 := by
  rw [value_mkNode]
  change (((mkZero 1).value V).append ((n.value V).append .empty)).toNat = _
    ∧ (((mkZero 1).value V).append ((n.value V).append .empty)).width = _
  rw [Vec.append_empty, Vec.toNat_append, toNat_mkZero, Nat.zero_mul, Nat.zero_add, Vec.width_append, Node.width_value,
    Node.width_value, Nat.add_comm]
  exact ⟨rfl, rfl⟩

theorem testBit_top {k t : Nat} (below : k < 2 ^ (t + 1)) : k.testBit t = true ↔ 2 ^ t ≤ k := by
  rw [Nat.pow_succ] at below
  rw [Nat.testBit_eq_decide_div_mod_eq, decide_eq_true_iff]
  have small : k / 2 ^ t < 2 := Nat.div_lt_of_lt_mul below
  rw [← Nat.one_mul (2 ^ t), ← Nat.le_div_iff_mul_le (Nat.two_pow_pos t), Nat.one_mul]
  generalize k / 2 ^ t = quotient at *
  omega

/-- The formula for an unsigned product is true exactly when the product is out of the range. -/
theorem umuloEliminate_holds_iff (sorted : a.WellSorted) (sameSize : b.getSize = a.getSize)
    : (UmuloEliminate.apply a b).holds V = true ↔ 2 ^ a.getSize ≤ (a.value V).toNat * (b.value V).toNat := by
  have aBelow := (a.value V).toNat_lt
  have bBelow := (b.value V).toNat_lt
  rw [Node.width_value] at aBelow bBelow
  rw [sameSize] at bBelow
  unfold UmuloEliminate.apply
  dsimp only
  split
  · next isOne =>
      rw [isOne] at aBelow bBelow ⊢
      have small : (a.value V).toNat * (b.value V).toNat ≤ 1 * 1 := Nat.mul_le_mul (by omega) (by omega)
      refine ⟨fun impossible => absurd impossible Bool.false_ne_true, fun large => by omega⟩
  · obtain ⟨aNumber, aWidth⟩ := toNat_zeroConcat V a
    obtain ⟨bNumber, bWidth⟩ := toNat_zeroConcat V b
    have product : ((mkNode .mult [mkNode .concat [mkZero 1, a], mkNode .concat [mkZero 1, b]]).value V).toNat
        = (a.value V).toNat * (b.value V).toNat % 2 ^ (a.getSize + 1) := by
      rw [value_mkNode]
      change (Vec.zipWith (fun _ x y => x * y) _ _).toNat = _
      rw [Vec.toNat_zipWith_mul (by rw [aWidth, bWidth, sameSize]), aNumber, bNumber, aWidth]
    have flags := (UmuloEliminate.flags_terms V sorted.positive aBelow bBelow).append
      (Flag.extract (mkNode .mult [mkNode .concat [mkZero 1, a], mkNode .concat [mkZero 1, b]]) a.getSize)
    rw [(flags.or (by simp)).holds, Vec.bit_eq_testBit, product]
    by_cases pair : BitPair (a.value V).toNat (b.value V).toNat a.getSize
    · exact ⟨fun _ => pair.le_mul, fun _ => Or.inl pair⟩
    · have bounded := mul_lt_of_no_pair pair aBelow bBelow
      rw [Nat.mod_eq_of_lt bounded, testBit_top bounded, or_iff_right pair]

end Unsigned

-- Signed products

section Signed

variable (V : Valuation) {a b : Node}

/-- The two highest bits of a product that is off the range by one bit at most. -/
theorem top_bits_differ_iff {v : Vec} {t : Nat} {z : Int} (width : v.width = t + 2)
    (isNumber : v.toInt = z.bmod (2 ^ v.width)) (bounds : -(2 : Int) ^ (t + 1) ≤ z ∧ z ≤ 2 ^ (t + 1))
    : ¬(v.bit (t + 1) = true ↔ v.bit t = true) ↔ z < -2 ^ t ∨ 2 ^ t ≤ z := by
  have number : (v.toNat : Int) = z % 2 ^ v.width := by
    rw [Vec.toNat_eq_emod, isNumber]
    exact_mod_cast Int.bmod_emod
  rw [Vec.bit_eq_testBit, Vec.bit_eq_testBit, Nat.testBit_eq_decide_div_mod_eq, Nat.testBit_eq_decide_div_mod_eq,
    decide_eq_true_iff, decide_eq_true_iff]
  have isPower : (2 : Int) ^ t = (2 ^ t : Nat) := by push_cast; rfl
  have positive : 0 < 2 ^ t := Nat.two_pow_pos t
  rw [width, pow_succ, pow_succ, isPower] at number
  rw [pow_succ, isPower] at bounds
  rw [Nat.pow_succ, isPower]
  generalize 2 ^ t = half at *
  have quarters : v.toNat / (half * 2) = v.toNat / half / 2 := (Nat.div_div_eq_div_mul _ _ _).symm
  rw [quarters]
  -- The number of the vector, without the remainder.
  have shifted : (v.toNat : Int) = z ∨ (v.toNat : Int) = z + half * 2 * 2 ∧ z < 0 := by
    rcases lt_or_ge z 0 with negative | nonneg
    · right
      rw [number, ← Int.add_emod_right, Int.emod_eq_of_lt (by omega) (by omega)]
      exact ⟨rfl, negative⟩
    · left
      rw [number, Int.emod_eq_of_lt nonneg (by omega)]
  have division := Nat.div_add_mod v.toNat half
  have remainder := Nat.mod_lt v.toNat positive
  have few : v.toNat / half < 4 := Nat.div_lt_of_lt_mul (by omega)
  generalize v.toNat / half = quotient at *
  interval_cases quotient <;> omega

theorem msb_eq_bit (v : Vec) : v.msb = v.bit (v.width - 1) := BitVec.msb_eq_getLsbD_last v.bits

/-- A term whose bits are turned over where its sign is set. -/
theorem toNat_xor_sign (n : Node) (sorted : n.WellSorted)
    : ((mkNode .xor [n, mkSignExtend (mkExtract n (n.getSize - 1) (n.getSize - 1)) (n.getSize - 1)]).value V).toNat
      = magnitude (n.value V).toInt := by
  have positive := sorted.positive
  have isWidth : (n.value V).width = n.getSize := Node.width_value V n
  rw [value_mkNode]
  change (Vec.zipWith (fun _ x y => x ^^^ y) (n.value V)
    ((mkSignExtend (mkExtract n (n.getSize - 1) (n.getSize - 1)) (n.getSize - 1)).value V)).toNat = _
  rw [value_mkSignExtend, value_mkExtract, ← isWidth]
  rw [← isWidth] at positive
  generalize n.value V = v at *
  -- All bits of the extension are the sign bit.
  have copies (i : Nat) (inside : i < v.width)
      : ((v.extract (v.width - 1) (v.width - 1)).signExtend (v.width - 1)).bit i = v.msb := by
    rw [Vec.bit_signExtend, Vec.width_extract, Nat.sub_self, msb_eq_bit]
    split
    · next isFirst =>
        rw [Vec.bit_extract, Nat.sub_self, decide_eq_true (by omega), Bool.true_and, show v.width - 1 + i = v.width - 1 by omega]
    · rw [Vec.bit_extract, decide_eq_true (by omega), decide_eq_true (by omega), Bool.true_and, Bool.true_and]
      rfl
  have turned : Vec.zipWith (fun _ x y => x ^^^ y) v
      ((v.extract (v.width - 1) (v.width - 1)).signExtend (v.width - 1))
      = if v.msb then ⟨v.width, ~~~v.bits⟩ else v := by
    refine Vec.ext_bit (by split <;> rfl) (fun i => ?_)
    by_cases inside : i < v.width
    · rw [Vec.bitwise_xor.bit_zipWith inside, copies i inside]
      cases v.msb
      · rw [Bool.xor_false, if_neg Bool.false_ne_true]
      · rw [Bool.xor_true, if_pos rfl, Vec.bit, Vec.bit, BitVec.getLsbD_not, decide_eq_true inside, Bool.true_and]
    · rw [Vec.bit_of_ge _ (by rw [Vec.width_zipWith]; omega), Vec.bit_of_ge _ (by split <;> exact Nat.not_lt.mp inside)]
  have isSigned := v.toInt_eq
  have below : (v.toNat : Int) < 2 ^ v.width := by exact_mod_cast v.toNat_lt
  have bounds := v.toInt_bounds
  have half : (2 : Int) ^ v.width = 2 * 2 ^ (v.width - 1) := by rw [← pow_succ', Nat.sub_add_cancel positive]
  rw [turned]
  cases sign : v.msb
  · rw [sign, if_neg Bool.false_ne_true] at isSigned
    rw [if_neg Bool.false_ne_true, magnitude, if_pos (by omega)]
    omega
  · rw [sign, if_pos rfl] at isSigned
    rw [if_pos rfl, magnitude, if_neg (by omega)]
    have complemented : (Vec.mk v.width (~~~v.bits)).toNat = 2 ^ v.width - 1 - v.toNat := BitVec.toNat_not
    have isPower : (2 : Int) ^ v.width = (2 ^ v.width : Nat) := by push_cast; rfl
    rw [complemented]
    omega

/-- Before a round, both have seen the bits up to the number of the round. -/
structure SmuloEliminate.Seen (V : Valuation) (xor0 xor1 : Node) (t i : Nat) (s : SmuloEliminate.State) : Prop where
  ppc : Flag V s.ppc (UpperBit (xor0.value V) t i)
  res : Flag V s.res (PairBelow (xor0.value V) (xor1.value V) t (i + 1))

theorem SmuloEliminate.seen_step {xor0 xor1 : Node} {t i : Nat} {s : State} (below : i < t)
    (seen : Seen V xor0 xor1 t i s)
    : Seen V xor0 xor1 t (i + 1) (step xor0 xor1 (t + 1) s i) := by
  have ppc : Flag V (mkNode .or [s.ppc, mkExtract xor0 (t + 1 - 2 - i) (t + 1 - 2 - i)])
      (UpperBit (xor0.value V) t (i + 1)) := by
    refine (seen.ppc.or (Flag.extract xor0 (t + 1 - 2 - i))).congr ?_
    rw [upperBit_succ below, or_comm]
    exact Iff.rfl
  exact ⟨ppc, (seen.res.or ((Flag.extract xor1 (i + 1)).and ppc)).congr (pairBelow_succ (by omega)).symm⟩

/-- The flag of the pairs is set just if the numbers have bits at two positions that are large enough
together.
-/
theorem SmuloEliminate.flag_pairs {xor0 xor1 : Node} {t : Nat} (atLeastTwo : 2 ≤ t)
    (small : (xor0.value V).toNat < 2 ^ t) (small' : (xor1.value V).toNat < 2 ^ t)
    : Flag V (pairs xor0 xor1 (t + 1)) (BitPair (xor0.value V).toNat (xor1.value V).toNat t) := by
  have ppc : Flag V (mkExtract xor0 (t + 1 - 2) (t + 1 - 2)) (UpperBit (xor0.value V) t 1) :=
    (Flag.extract xor0 (t + 1 - 2)).congr (upperBit_one (show 0 < t by omega)).symm
  have initial : Seen V xor0 xor1 t 1
      ⟨mkExtract xor0 (t + 1 - 2) (t + 1 - 2), mkNode .and [mkExtract xor1 1 1, mkExtract xor0 (t + 1 - 2) (t + 1 - 2)]⟩ := by
    refine ⟨ppc, ((Flag.extract xor1 1).and ppc).congr ?_⟩
    rw [pairBelow_succ (Nat.le_refl 1), or_iff_right not_pairBelow_one]
  have loop : Seen V xor0 xor1 t (1 + (t + 1 - 3)) ((List.range' 1 (t + 1 - 3)).foldl (step xor0 xor1 (t + 1)) _) :=
    foldl_range'_invariant (Seen V xor0 xor1 t) (step xor0 xor1 (t + 1)) initial
      (fun i s fromOne below seen => seen_step V (by omega) seen)
  have final := loop.res
  rw [show 1 + (t + 1 - 3) + 1 = t by omega] at final
  exact final.congr (pairBelow_iff small small')

/-- The two highest bits of the product of one bit more. -/
theorem flag_topBits {t : Nat} (aSize : a.getSize = t + 1) (bSize : b.getSize = t + 1)
    (bounds : -(2 : Int) ^ (t + 1) ≤ (a.value V).toInt * (b.value V).toInt
      ∧ (a.value V).toInt * (b.value V).toInt ≤ 2 ^ (t + 1))
    : Flag V (mkNode .xor [mkExtract (mkNode .mult [mkSignExtend a 1, mkSignExtend b 1]) (t + 1) (t + 1),
        mkExtract (mkNode .mult [mkSignExtend a 1, mkSignExtend b 1]) t t])
      ((a.value V).toInt * (b.value V).toInt < -2 ^ t ∨ 2 ^ t ≤ (a.value V).toInt * (b.value V).toInt) := by
  have isValue : (mkNode .mult [mkSignExtend a 1, mkSignExtend b 1]).value V
      = Vec.zipWith (fun _ x y => x * y) ((mkSignExtend a 1).value V) ((mkSignExtend b 1).value V) := by
    rw [value_mkNode]
    rfl
  have isWidth : ((mkNode .mult [mkSignExtend a 1, mkSignExtend b 1]).value V).width = t + 2 := by
    rw [isValue, Vec.width_zipWith, value_mkSignExtend, Vec.width_signExtend, Node.width_value, aSize]
  refine ((Flag.extract _ (t + 1)).xor (Flag.extract _ t)).congr (top_bits_differ_iff isWidth ?_ bounds)
  rw [isValue, Vec.toInt_zipWith_mul, Vec.width_zipWith, value_mkSignExtend, value_mkSignExtend, Vec.toInt_signExtend,
    Vec.toInt_signExtend]
  rw [value_mkSignExtend, value_mkSignExtend, Vec.width_signExtend, Vec.width_signExtend, Node.width_value,
    Node.width_value, aSize, bSize]

/-- The formula for a signed product is true exactly when the product is out of the range. -/
theorem smuloEliminate_holds_iff (sorted : a.WellSorted) (bSorted : b.WellSorted) (sameSize : b.getSize = a.getSize)
    : (SmuloEliminate.apply a b).holds V = true
      ↔ (a.value V).toInt * (b.value V).toInt < -2 ^ (a.getSize - 1)
        ∨ 2 ^ (a.getSize - 1) ≤ (a.value V).toInt * (b.value V).toInt := by
  obtain ⟨t, aSize⟩ : ∃ t, a.getSize = t + 1 := ⟨a.getSize - 1, by have := sorted.positive; omega⟩
  have bSize : b.getSize = t + 1 := sameSize.trans aSize
  have aBounds := (a.value V).toInt_bounds
  have bBounds := (b.value V).toInt_bounds
  rw [Node.width_value, aSize, Nat.add_sub_cancel] at aBounds
  rw [Node.width_value, bSize, Nat.add_sub_cancel] at bBounds
  have aSmall := magnitude_lt aBounds.1 aBounds.2
  have bSmall := magnitude_lt bBounds.1 bBounds.2
  unfold SmuloEliminate.apply
  dsimp only
  rw [aSize, Nat.add_sub_cancel]
  split
  · next isOne =>
      have isZero : t = 0 := by omega
      have flag {n : Node} (size : n.getSize = t + 1) : Flag V n ((n.value V).toInt = -1) := by
        have width : (n.value V).width = 1 := by rw [Node.width_value, size, isZero]
        refine ⟨width, ?_⟩
        have isSigned := (n.value V).toInt_eq
        have below := (n.value V).toNat_lt
        rw [msb_eq_bit, width] at isSigned
        rw [width] at below
        have isBit : (n.value V).bit 0 = decide ((n.value V).toNat = 1) := by
          rw [Vec.bit_eq_testBit, Nat.testBit_zero, Nat.mod_eq_of_lt (by simpa using below)]
        rw [isBit] at isSigned ⊢
        by_cases isSet : (n.value V).toNat = 1
        · simp [isSet] at isSigned ⊢
          omega
        · simp [isSet] at isSigned ⊢
          omega
      rw [((flag aSize).and (flag bSize)).holds]
      rw [isZero, pow_zero] at aBounds bBounds
      rw [isZero, pow_zero]
      have aCases : (a.value V).toInt = -1 ∨ (a.value V).toInt = 0 := by omega
      have bCases : (b.value V).toInt = -1 ∨ (b.value V).toInt = 0 := by omega
      rcases aCases with isA | isA <;> rcases bCases with isB | isB <;> rw [isA, isB] <;> decide
  · split
    · next isTwo =>
        have noPair : ¬BitPair (magnitude (a.value V).toInt) (magnitude (b.value V).toInt) t := by
          rintro ⟨i, j, enough, aBit, bBit⟩
          have := lt_of_testBit aSmall aBit
          have := lt_of_testBit bSmall bBit
          omega
        exact (flag_topBits V aSize bSize (mul_bounds_of_no_pair noPair aSmall bSmall)).holds
    · have pairs : Flag V (SmuloEliminate.pairs
            (mkNode .xor [a, mkSignExtend (mkExtract a t t) t]) (mkNode .xor [b, mkSignExtend (mkExtract b t t) t])
            (t + 1))
          (BitPair (magnitude (a.value V).toInt) (magnitude (b.value V).toInt) t) := by
        have aNumber := toNat_xor_sign V a sorted
        have bNumber := toNat_xor_sign V b bSorted
        rw [aSize, Nat.add_sub_cancel] at aNumber
        rw [bSize, Nat.add_sub_cancel] at bNumber
        rw [← aNumber, ← bNumber]
        exact SmuloEliminate.flag_pairs V (by omega) (aNumber ▸ aSmall) (bNumber ▸ bSmall)
      by_cases pair : BitPair (magnitude (a.value V).toInt) (magnitude (b.value V).toInt) t
      · -- A pair alone makes both sides true.
        have topBits := (@Flag.extract V (mkNode .mult [mkSignExtend a 1, mkSignExtend b 1]) (t + 1)).xor
          (Flag.extract (mkNode .mult [mkSignExtend a 1, mkSignExtend b 1]) t)
        exact iff_of_true ((pairs.or topBits).holds.mpr (Or.inl pair)) pair.outside
      · exact ((pairs.or (flag_topBits V aSize bSize (mul_bounds_of_no_pair pair aSmall bSmall))).congr
          (or_iff_right pair)).holds

end Signed

/-- For every width, the predicates for overflow are eliminated to formulas that are true exactly when the unsigned
product is 2 to the width or more, and when the signed one is out of the range of two's complements.
-/
theorem overflow_predicates_eliminated (V : Valuation) {a b : Node} (sorted : a.WellSorted) (bSorted : b.WellSorted)
    (sameSize : b.getSize = a.getSize)
    : ((UmuloEliminate.apply a b).holds V = true ↔ 2 ^ a.getSize ≤ (a.value V).toNat * (b.value V).toNat)
      ∧ ((SmuloEliminate.apply a b).holds V = true
        ↔ ¬(-2 ^ (a.getSize - 1) ≤ (a.value V).toInt * (b.value V).toInt
            ∧ (a.value V).toInt * (b.value V).toInt ≤ 2 ^ (a.getSize - 1) - 1)) := by
  refine ⟨umuloEliminate_holds_iff V sorted sameSize, ?_⟩
  rw [smuloEliminate_holds_iff V sorted bSorted sameSize]
  omega

/-- The square of the least number of four bits overflows, signed and unsigned. -/
theorem overflow_predicates_eliminated_four_bits
    : ((UmuloEliminate.apply (.var 4 0) (.var 4 0)).holds (fun n _ => BitVec.ofNat n 8) = true ↔ 2 ^ 4 ≤ 8 * 8)
      ∧ ((SmuloEliminate.apply (.var 4 0) (.var 4 0)).holds (fun n _ => BitVec.ofNat n 8) = true
        ↔ ¬(-2 ^ 3 ≤ (-8 : Int) * -8 ∧ (-8 : Int) * -8 ≤ 2 ^ 3 - 1)) :=
  overflow_predicates_eliminated (fun n _ => BitVec.ofNat n 8) (a := .var 4 0) (b := .var 4 0) (by decide) (by decide) rfl

end Ava6.Bv.Rewriter
