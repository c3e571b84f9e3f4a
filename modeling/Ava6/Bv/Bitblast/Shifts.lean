import Ava6.Bv.Bitblast.Utils
import Mathlib.Data.Nat.Log

/-! The barrel shifters of the bit-blaster. Stage `s` shifts by `2 ^ s` when bit `s` of the
amount is set; only the stages below the logarithm of the width are built, and a comparison
of the amount with the width covers the other bits.
-/

namespace Ava6.Bv.Bitblast

open Ava6.Library.BitList

variable (v : Valuation) {w : Nat}

/-- The bits of a constant. -/
def constBB (value : BitVec w) : Bits :=
  (List.range w).map fun i => if value.getLsbD i then mkTrue else mkFalse

/-- A vector given position by position. -/
theorem represents_map_range {f : Nat → Gate} {x : BitVec w}
    (same : ∀ i < w, (f i).eval v = x.getLsbD i)
    : Represents (values v ((List.range w).map f)) x := by
  refine Represents.of_getD (by simp) fun i inside => ?_
  rw [getD_values, List.getD_eq_getElem?_getD, List.getElem?_map, List.getElem?_range inside]
  exact same i inside

theorem constBB_represents (value : BitVec w) : Represents (values v (constBB value)) value := by
  refine represents_map_range v fun i _ => ?_
  split
  · next set => rw [set, eval_mkTrue]
  · next clear => rw [Bool.not_eq_true] at clear; rw [clear, eval_mkFalse]

/-- One stage of the left shifter. -/
def shlStage (bs : Gate) (threshold : Nat) (prev : Bits) : Bits :=
  (List.range prev.length).map fun i =>
    if i < threshold then mkIte bs mkFalse (prev.getD i mkFalse)
    else mkIte bs (prev.getD (i - threshold) mkFalse) (prev.getD i mkFalse)

/-- One stage of a right shifter that moves in the bit `fill`. -/
def shrStage (fill bs : Gate) (threshold : Nat) (prev : Bits) : Bits :=
  (List.range prev.length).map fun i =>
    if prev.length ≤ i + threshold then mkIte bs fill (prev.getD i mkFalse)
    else mkIte (mkNot bs) (prev.getD i mkFalse) (prev.getD (i + threshold) mkFalse)

/-- The stages of a barrel shifter and the final choice for amounts from the width on. -/
def barrelShift (stage : Gate → Nat → Bits → Bits) (fill : Gate) (a b : Bits) (size : Nat) : Bits :=
  let log2Size := Nat.clog 2 size
  let aSizeBits := constBB (BitVec.ofNat size size)
  let bUltASize := uLessThanBB b aSizeBits false
  let res := (List.range log2Size).foldl (fun res s => stage (b.getD s mkFalse) (2 ^ s) res) a
  res.map fun bit => mkIte bUltASize bit fill

def shlBB (a b : Bits) (size : Nat) : Bits := barrelShift shlStage mkFalse a b size

def lshrBB (a b : Bits) (size : Nat) : Bits := barrelShift (shrStage mkFalse) mkFalse a b size

/-- The sign bit is the one of the unshifted vector throughout. -/
def ashrBB (a b : Bits) (size : Nat) : Bits :=
  let signBit := a.getD (a.length - 1) mkFalse
  barrelShift (shrStage signBit) signBit a b size

theorem shlStage_represents {prev : Bits} {x : BitVec w} (represents : Represents (values v prev) x)
    (bs : Gate) (threshold : Nat)
    : Represents (values v (shlStage bs threshold prev))
      (x <<< (if bs.eval v then threshold else 0)) := by
  have length : prev.length = w := by simpa using represents.length
  have bits (i : Nat) : (prev.getD i mkFalse).eval v = x.getLsbD i := by
    rw [← getD_values, represents.getD]
  rw [shlStage, length]
  refine represents_map_range v fun i inside => ?_
  rw [BitVec.getLsbD_shiftLeft]
  split
  · next low =>
    rw [eval_mkIte, bits]
    cases bs.eval v <;> simp [low, inside]
  · next high =>
    rw [eval_mkIte, bits, bits]
    cases bs.eval v <;> simp [high, inside]

theorem lshrStage_represents {prev : Bits} {x : BitVec w}
    (represents : Represents (values v prev) x) (bs : Gate) (threshold : Nat)
    : Represents (values v (shrStage mkFalse bs threshold prev))
      (x >>> (if bs.eval v then threshold else 0)) := by
  have length : prev.length = w := by simpa using represents.length
  have bits (i : Nat) : (prev.getD i mkFalse).eval v = x.getLsbD i := by
    rw [← getD_values, represents.getD]
  rw [shrStage, length]
  refine represents_map_range v fun i inside => ?_
  rw [BitVec.getLsbD_ushiftRight]
  split
  · next beyond =>
    rw [eval_mkIte, bits]
    cases bs.eval v with
    | false => simp
    | true => simp [BitVec.getLsbD_of_ge x (threshold + i) (by omega)]
  · rw [eval_mkIte, eval_mkNot, bits, bits]
    cases bs.eval v <;> simp [Nat.add_comm]

theorem ashrStage_represents {prev : Bits} {x : BitVec w}
    (represents : Represents (values v prev) x) {sign : Gate} (isSign : sign.eval v = x.msb)
    (bs : Gate) (threshold : Nat)
    : Represents (values v (shrStage sign bs threshold prev))
      (x.sshiftRight (if bs.eval v then threshold else 0)) := by
  have length : prev.length = w := by simpa using represents.length
  have bits (i : Nat) : (prev.getD i mkFalse).eval v = x.getLsbD i := by
    rw [← getD_values, represents.getD]
  rw [shrStage, length]
  refine represents_map_range v fun i inside => ?_
  rw [BitVec.getLsbD_sshiftRight]
  split
  · next beyond =>
    rw [eval_mkIte, bits, isSign]
    cases bs.eval v with
    | false => simp [inside]
    | true => simp [inside, Nat.not_lt.mpr (by omega : w ≤ threshold + i)]
  · next within =>
    rw [eval_mkIte, eval_mkNot, bits, bits]
    cases bs.eval v with
    | false => simp [inside]
    | true => simp [inside, Nat.add_comm, (by omega : threshold + i < w)]

/-- The first stages shift by the amount reduced to their bits, by induction on the number of
stages. -/
theorem stages_represent {stage : Gate → Nat → Bits → Bits} {shift : BitVec w → Nat → BitVec w}
    {keeps : BitVec w → Prop}
    (step : ∀ prev x bs threshold, keeps x → Represents (values v prev) x
      → Represents (values v (stage bs threshold prev))
        (shift x (if bs.eval v then threshold else 0)))
    (kept : ∀ x n, keeps x → keeps (shift x n))
    (zero : ∀ x, shift x 0 = x) (add : ∀ x m n, shift x (m + n) = shift (shift x m) n)
    {a b : Bits} {x y : BitVec w} (initial : keeps x)
    (left : Represents (values v a) x) (right : Represents (values v b) y) (count : Nat)
    : keeps (shift x (y.toNat % 2 ^ count))
      ∧ Represents
        (values v ((List.range count).foldl (fun res s => stage (b.getD s mkFalse) (2 ^ s) res) a))
        (shift x (y.toNat % 2 ^ count)) := by
  induction count with
  | zero =>
    rw [pow_zero, Nat.mod_one, zero]
    exact ⟨initial, left⟩
  | succ count ih =>
    have bit : (b.getD count mkFalse).eval v = y.toNat.testBit count := by
      rw [← getD_values, right.getD]
      rfl
    have amount : y.toNat % 2 ^ (count + 1)
        = y.toNat % 2 ^ count + if (b.getD count mkFalse).eval v then 2 ^ count else 0 := by
      rw [Nat.mod_pow_succ, bit, Nat.testBit_eq_decide_div_mod_eq]
      rcases Nat.mod_two_eq_zero_or_one (y.toNat / 2 ^ count) with clear | set
      · simp [clear]
      · simp [set]
    rw [List.range_succ, List.foldl_append, amount, add]
    exact ⟨kept _ _ ih.1, step _ _ _ _ ih.1 ih.2⟩

/-- The whole shifter: the amount when it is below the width, and the fill bit otherwise. -/
theorem barrelShift_represents {stage : Gate → Nat → Bits → Bits} {fill : Gate}
    (shift : BitVec w → Nat → BitVec w) (keeps : BitVec w → Prop)
    (step : ∀ prev x bs threshold, keeps x → Represents (values v prev) x
      → Represents (values v (stage bs threshold prev))
        (shift x (if bs.eval v then threshold else 0)))
    (kept : ∀ x n, keeps x → keeps (shift x n))
    (zero : ∀ x, shift x 0 = x) (add : ∀ x m n, shift x (m + n) = shift (shift x m) n)
    {a b : Bits} {x y : BitVec w} (positive : 0 < w) (initial : keeps x)
    (out : w ≤ y.toNat → ∀ i < w, (shift x y.toNat).getLsbD i = fill.eval v)
    (left : Represents (values v a) x) (right : Represents (values v b) y)
    : Represents (values v (barrelShift stage fill a b w)) (shift x y.toNat) := by
  have stages := (stages_represent v step kept zero add initial left right (Nat.clog 2 w)).2
  have bLength : b.length = w := by simpa using right.length
  have size := constBB_represents v (BitVec.ofNat w w)
  have sizeValue : (BitVec.ofNat w w).toNat = w := by
    rw [BitVec.toNat_ofNat, Nat.mod_eq_of_lt Nat.lt_two_pow_self]
  have sizeLength : (constBB (BitVec.ofNat w w)).length = w := by simp [constBB]
  have below := eval_uLessThanBB v (a := b) (b := constBB (BitVec.ofNat w w))
    (by rw [bLength, sizeLength]) (by omega) false
  rw [right.toNat, size.toNat, sizeValue] at below
  simp only [compares, Bool.false_eq_true, if_false] at below
  unfold barrelShift
  dsimp only
  refine Represents.of_getD (by simpa using stages.length) fun i inside => ?_
  rw [getD_values, List.getD_eq_getElem?_getD, List.getElem?_map]
  have length := stages.length
  rw [length_values] at length
  have bit := stages.getD i
  rw [getD_values, List.getD_eq_getElem?_getD] at bit
  rw [List.getElem?_eq_getElem (by omega)] at bit ⊢
  simp only [Option.getD_some, Option.map_some, eval_mkIte] at bit ⊢
  split
  · next less =>
    have reduced : y.toNat % 2 ^ Nat.clog 2 w = y.toNat :=
      Nat.mod_eq_of_lt (Nat.lt_of_lt_of_le (below.mp less) (Nat.le_pow_clog Nat.one_lt_two w))
    rw [bit, reduced]
  · next atLeast =>
    exact (out (by simpa [below] using atLeast) i inside).symm

section Shifts
variable {a b : Bits} {x y : BitVec w} (positive : 0 < w) (left : Represents (values v a) x)
  (right : Represents (values v b) y)
include positive left right

theorem shlBB_represents : Represents (values v (shlBB a b w)) (x <<< y) := by
  refine barrelShift_represents v (fun x n => x <<< n) (fun _ => True)
    (fun _ _ bs threshold _ represents => shlStage_represents v represents bs threshold)
    (fun _ _ _ => trivial) (fun x => BitVec.shiftLeft_zero x) (fun x m n => BitVec.shiftLeft_add x m n)
    positive trivial ?_ left right
  intro out i inside
  rw [BitVec.getLsbD_shiftLeft]
  simp [Nat.lt_of_lt_of_le inside out]

theorem lshrBB_represents : Represents (values v (lshrBB a b w)) (x >>> y) := by
  refine barrelShift_represents v (fun x n => x >>> n) (fun _ => True)
    (fun _ _ bs threshold _ represents => lshrStage_represents v represents bs threshold)
    (fun _ _ _ => trivial) (fun x => BitVec.ushiftRight_zero x) (fun x m n => BitVec.shiftRight_add x m n)
    positive trivial ?_ left right
  intro out i _
  rw [BitVec.getLsbD_ushiftRight, BitVec.getLsbD_of_ge x _ (by omega), eval_mkFalse]

/-- Every intermediate vector keeps the sign of the first one. -/
theorem ashrBB_represents : Represents (values v (ashrBB a b w)) (x.sshiftRight' y) := by
  have length : a.length = w := by simpa using left.length
  have sign : (a.getD (a.length - 1) mkFalse).eval v = x.msb := by
    rw [← getD_values, left.getD, length, BitVec.msb_eq_getLsbD_last]
  refine barrelShift_represents v (fun x n => x.sshiftRight n) (fun z => z.msb = x.msb)
    (fun _ _ bs threshold keeps represents =>
      ashrStage_represents v represents (sign.trans keeps.symm) bs threshold)
    (fun z n keeps => (BitVec.msb_sshiftRight).trans keeps) (fun x => BitVec.sshiftRight_zero)
    (fun x m n => BitVec.sshiftRight_add) positive rfl ?_ left right
  intro out i inside
  rw [BitVec.getLsbD_sshiftRight, sign]
  simp [inside, Nat.not_lt.mpr (by omega : w ≤ y.toNat + i)]

end Shifts

end Ava6.Bv.Bitblast
