import Mathlib.SetTheory.Cardinal.Aleph
import Mathlib.SetTheory.Cardinal.Arithmetic

/-! Cardinalities in one integer: finite ones with an offset and a ceiling, and the beth numbers. What is
computed is exact, or finite and at the ceiling, unless an operation absorbs an operand at the ceiling.
-/

namespace Ava6.Util

/-- A positive number is one more than a finite cardinality, a negative one says which beth number the
cardinality is, and zero is for an unknown one. -/
structure Cardinality where
  card : Int
deriving DecidableEq

namespace Cardinality

def largeFiniteCard : Int := 2 ^ 64 + 1

def ofInteger (n : Nat) : Cardinality := ⟨n + 1⟩

def ofBeth (beth : Nat) : Cardinality := ⟨-beth - 1⟩

def isUnknown (c : Cardinality) : Bool := c.card == 0

def isFinite (c : Cardinality) : Bool := decide (c.card > 0)

def isLargeFinite (c : Cardinality) : Bool := decide (c.card ≥ largeFiniteCard)

def isInfinite (c : Cardinality) : Bool := decide (c.card < 0)

def getFiniteCardinality (c : Cardinality) : Int := c.card - 1

def getBethNumber (c : Cardinality) : Int := -c.card - 1

inductive Comparison
  | less | equal | greater | unknown
deriving DecidableEq

def compare (a c : Cardinality) : Comparison :=
  if a.isUnknown || c.isUnknown then .unknown
  else if a.isLargeFinite then
    if c.isLargeFinite then .unknown
    else if c.isFinite then .greater
    else .less
  else if c.isLargeFinite then
    if a.isLargeFinite then .unknown
    else if a.isFinite then .less
    else .greater
  else if a.isInfinite then
    if c.isFinite then .greater
    else if a.card < c.card then .greater
    else if a.card = c.card then .equal
    else .less
  else if c.isInfinite then .less
  else if a.card < c.card then .less
  else if a.card = c.card then .equal
  else .greater

/-- What all operations do first, where the ceiling absorbs every finite operand. -/
def unlessAbsorbed (a c result : Cardinality) : Cardinality :=
  if a.isUnknown then a
  else if c.isUnknown then ⟨0⟩
  else if c.isFinite && a.isLargeFinite then a
  else if a.isFinite && c.isLargeFinite then ⟨largeFiniteCard⟩
  else result

def add (a c : Cardinality) : Cardinality :=
  unlessAbsorbed a c
    (if a.isFinite && c.isFinite then ⟨a.card + (c.card - 1)⟩
    else if a.compare c = .less then c
    else a)

def mulUnabsorbed (a c : Cardinality) : Cardinality :=
  if a.compare (ofInteger 0) = .equal || c.compare (ofInteger 0) = .equal then ofInteger 0
  else if !a.isFinite || !c.isFinite then
    if a.compare c = .less then c else a
  else ⟨(a.card - 1) * (c.card - 1) + 1⟩

def mul (a c : Cardinality) : Cardinality := unlessAbsorbed a c (a.mulUnabsorbed c)

def powUnabsorbed (a c : Cardinality) : Cardinality :=
  if c.compare (ofInteger 0) = .equal then ⟨2⟩
  else if a.compare (ofInteger 0) = .equal then a
  else if a.compare (ofInteger 1) = .equal then a
  else if c.compare (ofInteger 1) = .equal then a
  else if a.isFinite && c.isFinite then
    if a.card - 1 ≥ 2 && c.card - 1 ≥ 64 then ⟨largeFiniteCard⟩
    else ⟨(a.card - 1) ^ (c.card - 1).toNat + 1⟩
  else if !a.isFinite && c.isFinite then a
  else if a.compare c = .greater then a
  else ⟨c.card - 1⟩

def pow (a c : Cardinality) : Cardinality := unlessAbsorbed a c (a.powUnabsorbed c)

-- What they stand for

open Cardinal

def IsLarge (κ : Cardinal.{0}) : Prop := (2 ^ 64 : ℕ) ≤ κ ∧ κ < ℵ₀

/-- Infinite cardinalities and finite ones below the ceiling are exact. -/
structure Represents (c : Cardinality) (κ : Cardinal.{0}) : Prop where
  known : c.isUnknown = false
  infinite : c.isInfinite = true → κ = beth c.getBethNumber.toNat
  finite : c.isFinite = true → c.isLargeFinite = false → κ = c.getFiniteCardinality.toNat
  large : c.isLargeFinite = true → IsLarge κ

/-- What a comparison says. -/
def Comparison.Holds (κ μ : Cardinal.{0}) : Comparison → Prop
  | .less => κ < μ
  | .equal => κ = μ
  | .greater => μ < κ
  | .unknown => True

theorem isLarge_natCast {n : Nat} : IsLarge n ↔ 2 ^ 64 ≤ n := by
  rw [IsLarge, and_iff_left (natCast_lt_aleph0)]
  exact_mod_cast Iff.rfl

theorem represents_of_isLarge {c : Cardinality} {κ : Cardinal.{0}} (isLarge : c.isLargeFinite = true)
    (large : IsLarge κ)
    : Represents c κ := by
  have ceiling : 2 ^ 64 + 1 ≤ c.card := of_decide_eq_true isLarge
  refine ⟨?_, fun isInfinite => ?_, fun _ notLarge => ?_, fun _ => large⟩
  · simp only [isUnknown, beq_eq_false_iff_ne]
    omega
  · have negative : c.card < 0 := of_decide_eq_true isInfinite
    omega
  · rw [isLarge] at notLarge
    cases notLarge

theorem represents_ofInteger (n : Nat) : Represents (ofInteger n) n := by
  refine ⟨?_, fun isInfinite => ?_, fun _ _ => ?_, fun isLarge => isLarge_natCast.mpr ?_⟩
  · simp only [isUnknown, ofInteger, beq_eq_false_iff_ne]
    omega
  · have negative : (n : Int) + 1 < 0 := of_decide_eq_true isInfinite
    omega
  · simp [getFiniteCardinality, ofInteger]
  · have ceiling : 2 ^ 64 + 1 ≤ (n : Int) + 1 := of_decide_eq_true isLarge
    omega

theorem represents_ofBeth (k : Nat) : Represents (ofBeth k) (beth k) := by
  refine ⟨?_, fun _ => ?_, fun isFinite _ => ?_, fun isLarge => ?_⟩
  · simp only [isUnknown, ofBeth, beq_eq_false_iff_ne]
    omega
  · simp [getBethNumber, ofBeth]
  · have positive : -(k : Int) - 1 > 0 := of_decide_eq_true isFinite
    omega
  · have ceiling : -(k : Int) - 1 ≥ 2 ^ 64 + 1 := of_decide_eq_true isLarge
    omega

/-- A cardinality is finite below the ceiling, at the ceiling or infinite. -/
theorem Represents.cases {c : Cardinality} {κ : Cardinal.{0}} (represents : Represents c κ)
    : (∃ n : Nat, n < 2 ^ 64 ∧ c = ofInteger n ∧ κ = n)
      ∨ (∃ n : Nat, c.isLargeFinite = true ∧ 2 ^ 64 ≤ n ∧ κ = n)
      ∨ ∃ k : Nat, c = ofBeth k ∧ κ = beth k := by
  obtain ⟨known, infinite, finite, large⟩ := represents
  obtain ⟨card⟩ := c
  by_cases negative : card < 0
  · right; right
    refine ⟨(-card - 1).toNat, ?_, infinite (decide_eq_true negative)⟩
    rw [ofBeth, Cardinality.mk.injEq]
    omega
  · by_cases isLarge : card ≥ largeFiniteCard
    · right; left
      obtain ⟨low, high⟩ := large (decide_eq_true isLarge)
      obtain ⟨n, rfl⟩ := lt_aleph0.mp high
      exact ⟨n, decide_eq_true isLarge, isLarge_natCast.mp ⟨low, high⟩, rfl⟩
    · left
      have notZero : card ≠ 0 := by simpa [isUnknown] using known
      have positive : card > 0 := by omega
      rw [largeFiniteCard] at isLarge
      refine ⟨(card - 1).toNat, by omega, ?_,
        finite (decide_eq_true positive) (decide_eq_false (by rwa [largeFiniteCard]))⟩
      rw [ofInteger, Cardinality.mk.injEq]
      omega

-- What the tests say of each kind of cardinality.

@[simp]
theorem card_ofInteger (n : Nat) : (ofInteger n).card = n + 1 := rfl

@[simp]
theorem card_ofBeth (k : Nat) : (ofBeth k).card = -k - 1 := rfl

@[simp]
theorem isUnknown_ofInteger (n : Nat) : (ofInteger n).isUnknown = false := (represents_ofInteger n).known

@[simp]
theorem isFinite_ofInteger (n : Nat) : (ofInteger n).isFinite = true :=
  decide_eq_true (by rw [card_ofInteger]; omega)

@[simp]
theorem isInfinite_ofInteger (n : Nat) : (ofInteger n).isInfinite = false :=
  decide_eq_false (by rw [card_ofInteger]; omega)

theorem isLargeFinite_ofInteger_of_lt {n : Nat} (small : n < 2 ^ 64) : (ofInteger n).isLargeFinite = false :=
  decide_eq_false (by rw [card_ofInteger, largeFiniteCard]; omega)

@[simp]
theorem isUnknown_ofBeth (k : Nat) : (ofBeth k).isUnknown = false := (represents_ofBeth k).known

@[simp]
theorem isFinite_ofBeth (k : Nat) : (ofBeth k).isFinite = false :=
  decide_eq_false (by rw [card_ofBeth]; omega)

@[simp]
theorem isInfinite_ofBeth (k : Nat) : (ofBeth k).isInfinite = true :=
  decide_eq_true (by rw [card_ofBeth]; omega)

@[simp]
theorem isLargeFinite_ofBeth (k : Nat) : (ofBeth k).isLargeFinite = false :=
  decide_eq_false (by rw [card_ofBeth, largeFiniteCard]; omega)

theorem isFinite_of_isLargeFinite {c : Cardinality} (isLarge : c.isLargeFinite = true)
    : c.isFinite = true := by
  have ceiling : 2 ^ 64 + 1 ≤ c.card := of_decide_eq_true isLarge
  exact decide_eq_true (by omega)

theorem isUnknown_of_isLargeFinite {c : Cardinality} (isLarge : c.isLargeFinite = true)
    : c.isUnknown = false := by
  have ceiling : 2 ^ 64 + 1 ≤ c.card := of_decide_eq_true isLarge
  simp only [isUnknown, beq_eq_false_iff_ne]
  omega

theorem natCast_lt_beth (n k : Nat) : (n : Cardinal.{0}) < beth k :=
  natCast_lt_aleph0.trans_le (aleph0_le_beth k)

variable {a c : Cardinality} {κ μ : Cardinal.{0}}

/-- Comparisons are right, and there is an answer unless both are at the ceiling. -/
theorem compare_spec (representsA : Represents a κ) (representsC : Represents c μ)
    : (a.compare c).Holds κ μ ∧ (a.compare c = .unknown → IsLarge κ ∧ IsLarge μ) := by
  rcases representsA.cases with ⟨n, small, rfl, rfl⟩ | ⟨n, isLarge, low, rfl⟩ | ⟨k, rfl, rfl⟩
  · have notLarge : (ofInteger n).isLargeFinite = false :=
      isLargeFinite_ofInteger_of_lt small
    rcases representsC.cases with ⟨m, small', rfl, rfl⟩ | ⟨m, isLarge', low', rfl⟩ | ⟨j, rfl, rfl⟩
    · have notLarge' : (ofInteger m).isLargeFinite = false :=
        isLargeFinite_ofInteger_of_lt small'
      simp only [compare, isUnknown_ofInteger, notLarge, notLarge', isInfinite_ofInteger, Bool.or_false,
        Bool.false_eq_true, if_false]
      rw [card_ofInteger, card_ofInteger]
      split
      · exact ⟨Nat.cast_lt.mpr (by omega), nofun⟩
      · split
        · exact ⟨Nat.cast_inj.mpr (by omega), nofun⟩
        · exact ⟨Nat.cast_lt.mpr (by omega), nofun⟩
    · simp only [compare, isUnknown_ofInteger, isUnknown_of_isLargeFinite isLarge', notLarge, isLarge',
        isFinite_ofInteger, Bool.or_false, Bool.false_eq_true, if_false, if_true]
      exact ⟨Nat.cast_lt.mpr (by omega), nofun⟩
    · simp only [compare, isUnknown_ofInteger, isUnknown_ofBeth, notLarge, isLargeFinite_ofBeth,
        isInfinite_ofInteger, isInfinite_ofBeth, Bool.or_false, Bool.false_eq_true, if_false, if_true]
      exact ⟨natCast_lt_beth n j, nofun⟩
  · rcases representsC.cases with ⟨m, small', rfl, rfl⟩ | ⟨m, isLarge', low', rfl⟩ | ⟨j, rfl, rfl⟩
    · have notLarge' : (ofInteger m).isLargeFinite = false :=
        isLargeFinite_ofInteger_of_lt small'
      simp only [compare, isUnknown_ofInteger, isUnknown_of_isLargeFinite isLarge, notLarge', isLarge,
        isFinite_ofInteger, Bool.or_false, Bool.false_eq_true, if_false, if_true]
      exact ⟨Nat.cast_lt.mpr (by omega), nofun⟩
    · simp only [compare, isUnknown_of_isLargeFinite isLarge, isUnknown_of_isLargeFinite isLarge', isLarge,
        isLarge', Bool.or_false, Bool.false_eq_true, if_false, if_true]
      exact ⟨trivial, fun _ => ⟨isLarge_natCast.mpr low, isLarge_natCast.mpr low'⟩⟩
    · simp only [compare, isUnknown_of_isLargeFinite isLarge, isUnknown_ofBeth, isLarge,
        isLargeFinite_ofBeth, isFinite_ofBeth, Bool.or_false, Bool.false_eq_true, if_false, if_true]
      exact ⟨natCast_lt_beth n j, nofun⟩
  · rcases representsC.cases with ⟨m, small', rfl, rfl⟩ | ⟨m, isLarge', low', rfl⟩ | ⟨j, rfl, rfl⟩
    · have notLarge' : (ofInteger m).isLargeFinite = false :=
        isLargeFinite_ofInteger_of_lt small'
      simp only [compare, isUnknown_ofInteger, isUnknown_ofBeth, notLarge', isLargeFinite_ofBeth,
        isInfinite_ofBeth, isFinite_ofInteger, Bool.or_false, Bool.false_eq_true, if_false, if_true]
      exact ⟨natCast_lt_beth m k, nofun⟩
    · simp only [compare, isUnknown_ofBeth, isUnknown_of_isLargeFinite isLarge', isLarge',
        isLargeFinite_ofBeth, isFinite_ofBeth, Bool.or_false, Bool.false_eq_true, if_false, if_true]
      exact ⟨natCast_lt_beth m k, nofun⟩
    · simp only [compare, isUnknown_ofBeth, isLargeFinite_ofBeth, isInfinite_ofBeth, isFinite_ofBeth,
        Bool.or_false, Bool.false_eq_true, if_false, if_true]
      rw [card_ofBeth, card_ofBeth]
      split
      · exact ⟨beth_lt_beth.mpr (Nat.cast_lt.mpr (by omega)), nofun⟩
      · split
        · exact ⟨congrArg (fun i : Nat => beth i) (by omega), nofun⟩
        · exact ⟨beth_lt_beth.mpr (Nat.cast_lt.mpr (by omega)), nofun⟩

/-- Equality with a small number is recognised. -/
theorem compare_ofInteger (representsA : Represents a κ) {n : Nat} (small : n < 2 ^ 64)
    : a.compare (ofInteger n) = .equal ↔ κ = n := by
  obtain ⟨holds, answers⟩ := compare_spec representsA (represents_ofInteger n)
  cases isComparison : a.compare (ofInteger n) with
  | less =>
      rw [isComparison] at holds
      exact ⟨nofun, fun same => absurd same (ne_of_lt holds)⟩
  | equal =>
      rw [isComparison] at holds
      exact ⟨fun _ => holds, fun _ => rfl⟩
  | greater =>
      rw [isComparison] at holds
      exact ⟨nofun, fun same => absurd same (ne_of_gt holds)⟩
  | unknown =>
      have isLarge := isLarge_natCast.mp (answers isComparison).2
      omega

/-- The larger of two cardinalities of which not both are at the ceiling. -/
theorem represents_larger (representsA : Represents a κ) (representsC : Represents c μ)
    (notLarge : ¬ (IsLarge κ ∧ IsLarge μ))
    : Represents (if a.compare c = .less then c else a) (max κ μ) := by
  obtain ⟨holds, answers⟩ := compare_spec representsA representsC
  cases isComparison : a.compare c with
  | less =>
      rw [isComparison] at holds
      rw [if_pos rfl, max_eq_right (le_of_lt holds)]
      exact representsC
  | equal =>
      rw [isComparison] at holds
      rw [if_neg nofun, max_eq_left (le_of_eq (Eq.symm holds))]
      exact representsA
  | greater =>
      rw [isComparison] at holds
      rw [if_neg nofun, max_eq_left (le_of_lt holds)]
      exact representsA
  | unknown => exact absurd (answers isComparison) notLarge

theorem Represents.isFinite_iff (representsC : Represents c μ) : c.isFinite = true ↔ μ < ℵ₀ := by
  rcases representsC.cases with ⟨m, _, rfl, rfl⟩ | ⟨m, isLarge, _, rfl⟩ | ⟨j, rfl, rfl⟩
  · simp [natCast_lt_aleph0]
  · simp [natCast_lt_aleph0, isFinite_of_isLargeFinite isLarge]
  · simp [aleph0_le_beth]

theorem Represents.small (representsC : Represents c μ) (finite : μ < ℵ₀) (notLarge : ¬ IsLarge μ)
    : ∃ m : Nat, m < 2 ^ 64 ∧ c = ofInteger m ∧ μ = m := by
  rcases representsC.cases with isSmall | ⟨m, _, low, rfl⟩ | ⟨j, rfl, rfl⟩
  · exact isSmall
  · exact absurd (isLarge_natCast.mpr low) notLarge
  · exact absurd finite (not_lt_of_ge (aleph0_le_beth j))

theorem Represents.isLargeFinite_iff (representsC : Represents c μ)
    : c.isLargeFinite = true ↔ IsLarge μ := by
  refine ⟨representsC.large, fun isLarge => ?_⟩
  rcases representsC.cases with ⟨m, small, rfl, rfl⟩ | ⟨m, isLargeFinite, _, rfl⟩ | ⟨j, rfl, rfl⟩
  · have low := isLarge_natCast.mp isLarge
    omega
  · exact isLargeFinite
  · exact absurd isLarge.2 (not_lt_of_ge (aleph0_le_beth j))

theorem represents_iff_of_isLargeFinite (isLarge : c.isLargeFinite = true)
    : Represents c μ ↔ IsLarge μ :=
  ⟨fun represents => represents.large isLarge, represents_of_isLarge isLarge⟩

/-- The result is at the ceiling if both operands are finite and one of them is there. -/
theorem unlessAbsorbed_spec (representsA : Represents a κ) (representsC : Represents c μ)
    (result : Cardinality)
    : (κ < ℵ₀ ∧ μ < ℵ₀ ∧ (IsLarge κ ∨ IsLarge μ) ∧ (unlessAbsorbed a c result).isLargeFinite = true)
      ∨ (¬ (κ < ℵ₀ ∧ μ < ℵ₀ ∧ (IsLarge κ ∨ IsLarge μ)) ∧ unlessAbsorbed a c result = result) := by
  rw [unlessAbsorbed, representsA.known, representsC.known]
  simp only [Bool.false_eq_true, if_false]
  split
  · next absorbed =>
      rw [Bool.and_eq_true, representsC.isFinite_iff, representsA.isLargeFinite_iff] at absorbed
      exact Or.inl ⟨absorbed.2.2, absorbed.1, Or.inl absorbed.2,
        representsA.isLargeFinite_iff.mpr absorbed.2⟩
  · next notFirst =>
      rw [Bool.and_eq_true, representsC.isFinite_iff, representsA.isLargeFinite_iff] at notFirst
      split
      · next absorbed =>
          rw [Bool.and_eq_true, representsA.isFinite_iff, representsC.isLargeFinite_iff] at absorbed
          exact Or.inl ⟨absorbed.1, absorbed.2.2, Or.inr absorbed.2, by decide⟩
      · next notSecond =>
          rw [Bool.and_eq_true, representsA.isFinite_iff, representsC.isLargeFinite_iff] at notSecond
          refine Or.inr ⟨fun ⟨finiteA, finiteC, either⟩ => ?_, rfl⟩
          rcases either with isLarge | isLarge
          · exact notFirst ⟨finiteC, isLarge⟩
          · exact notSecond ⟨finiteA, isLarge⟩

/-- Operands that are not absorbed are both small or not both finite. -/
theorem operands_of_not_absorbed (representsA : Represents a κ) (representsC : Represents c μ)
    (notAbsorbed : ¬ (κ < ℵ₀ ∧ μ < ℵ₀ ∧ (IsLarge κ ∨ IsLarge μ)))
    : (∃ n m : Nat, (n < 2 ^ 64 ∧ a = ofInteger n ∧ κ = n) ∧ (m < 2 ^ 64 ∧ c = ofInteger m ∧ μ = m))
      ∨ ((a.isFinite && c.isFinite) = false ∧ (ℵ₀ ≤ κ ∨ ℵ₀ ≤ μ) ∧ ¬ (IsLarge κ ∧ IsLarge μ)) := by
  by_cases bothFinite : κ < ℵ₀ ∧ μ < ℵ₀
  · obtain ⟨finiteA, finiteC⟩ := bothFinite
    obtain ⟨n, isSmall⟩ := representsA.small finiteA
      (fun isLarge => notAbsorbed ⟨finiteA, finiteC, Or.inl isLarge⟩)
    obtain ⟨m, isSmall'⟩ := representsC.small finiteC
      (fun isLarge => notAbsorbed ⟨finiteA, finiteC, Or.inr isLarge⟩)
    exact Or.inl ⟨n, m, isSmall, isSmall'⟩
  · refine Or.inr ⟨?_, ?_, fun bothLarge => bothFinite ⟨bothLarge.1.2, bothLarge.2.2⟩⟩
    · rwa [← Bool.not_eq_true, Bool.and_eq_true, representsA.isFinite_iff, representsC.isFinite_iff]
    · rw [← not_lt, ← not_lt, ← not_and_or]
      exact bothFinite

-- The operations

theorem represents_add (representsA : Represents a κ) (representsC : Represents c μ)
    : Represents (a.add c) (κ + μ) := by
  rw [add]
  rcases unlessAbsorbed_spec representsA representsC _ with ⟨finiteA, finiteC, either, isLarge⟩
    | ⟨notAbsorbed, isResult⟩
  · refine represents_of_isLarge isLarge ?_
    obtain ⟨n, rfl⟩ := lt_aleph0.mp finiteA
    obtain ⟨m, rfl⟩ := lt_aleph0.mp finiteC
    rw [isLarge_natCast, isLarge_natCast] at either
    rw [← Nat.cast_add, isLarge_natCast]
    omega
  · rw [isResult]
    rcases operands_of_not_absorbed representsA representsC notAbsorbed with
      ⟨n, m, ⟨_, rfl, rfl⟩, _, rfl, rfl⟩ | ⟨notFinite, infinite, notLarge⟩
    · have isSum : (⟨(ofInteger n).card + ((ofInteger m).card - 1)⟩ : Cardinality) = ofInteger (n + m) := by
        rw [card_ofInteger, card_ofInteger, ofInteger, Cardinality.mk.injEq]
        omega
      simp only [isFinite_ofInteger, Bool.and_self, if_true, isSum]
      rw [← Nat.cast_add]
      exact represents_ofInteger (n + m)
    · have isSum : κ + μ = max κ μ := by
        rcases infinite with infiniteA | infiniteC
        · exact add_eq_max infiniteA
        · exact add_eq_max' infiniteC
      rw [notFinite, if_neg (by simp), isSum]
      exact represents_larger representsA representsC notLarge

theorem represents_mulUnabsorbed (representsA : Represents a κ) (representsC : Represents c μ)
    (notAbsorbed : ¬ (κ < ℵ₀ ∧ μ < ℵ₀ ∧ (IsLarge κ ∨ IsLarge μ)))
    : Represents (a.mulUnabsorbed c) (κ * μ) := by
  have isZeroA := compare_ofInteger representsA (show 0 < 2 ^ 64 by decide)
  have isZeroC := compare_ofInteger representsC (show 0 < 2 ^ 64 by decide)
  rw [Nat.cast_zero] at isZeroA isZeroC
  rw [mulUnabsorbed]
  by_cases zero : κ = 0 ∨ μ = 0
  · rw [if_pos (by simpa [isZeroA, isZeroC] using zero)]
    have isProduct : κ * μ = (0 : Nat) := by
      rw [Nat.cast_zero, mul_eq_zero]
      exact zero
    rw [isProduct]
    exact represents_ofInteger 0
  · rw [if_neg (by simpa [isZeroA, isZeroC] using zero)]
    rw [not_or] at zero
    rcases operands_of_not_absorbed representsA representsC notAbsorbed with
      ⟨n, m, ⟨_, rfl, rfl⟩, _, rfl, rfl⟩ | ⟨notFinite, infinite, notLarge⟩
    · have isProduct : (⟨((ofInteger n).card - 1) * ((ofInteger m).card - 1) + 1⟩ : Cardinality)
          = ofInteger (n * m) := by
        simp [ofInteger]
      simp only [isFinite_ofInteger, Bool.not_true, Bool.or_self, Bool.false_eq_true, if_false, isProduct]
      rw [← Nat.cast_mul]
      exact represents_ofInteger (n * m)
    · have isProduct : κ * μ = max κ μ := by
        rcases infinite with infiniteA | infiniteC
        · exact mul_eq_max_of_aleph0_le_left infiniteA zero.2
        · exact mul_eq_max_of_aleph0_le_right zero.1 infiniteC
      rw [← Bool.not_and, notFinite, if_pos (by simp), isProduct]
      exact represents_larger representsA representsC notLarge

/-- Zero is absorbed by the ceiling. -/
theorem represents_mul_iff (representsA : Represents a κ) (representsC : Represents c μ)
    : Represents (a.mul c) (κ * μ) ↔ ¬ (κ = 0 ∧ IsLarge μ) ∧ ¬ (IsLarge κ ∧ μ = 0) := by
  rw [mul]
  rcases unlessAbsorbed_spec representsA representsC (a.mulUnabsorbed c) with
    ⟨finiteA, finiteC, either, isLarge⟩ | ⟨notAbsorbed, isResult⟩
  · rw [represents_iff_of_isLargeFinite isLarge]
    obtain ⟨n, rfl⟩ := lt_aleph0.mp finiteA
    obtain ⟨m, rfl⟩ := lt_aleph0.mp finiteC
    rw [isLarge_natCast, isLarge_natCast] at either
    rw [← Nat.cast_mul, isLarge_natCast, isLarge_natCast, isLarge_natCast, Nat.cast_eq_zero,
      Nat.cast_eq_zero]
    constructor
    · intro large
      refine ⟨fun ⟨isZero, _⟩ => ?_, fun ⟨_, isZero⟩ => ?_⟩
      · rw [isZero, Nat.zero_mul] at large
        omega
      · rw [isZero, Nat.mul_zero] at large
        omega
    · rintro ⟨notLeft, notRight⟩
      rcases either with low | low
      · exact low.trans (Nat.le_mul_of_pos_right n (by omega))
      · exact low.trans (Nat.le_mul_of_pos_left m (by omega))
  · rw [isResult, iff_true_left (represents_mulUnabsorbed representsA representsC notAbsorbed)]
    refine ⟨fun ⟨isZero, large⟩ => ?_, fun ⟨large, isZero⟩ => ?_⟩
    · exact notAbsorbed ⟨isZero ▸ aleph0_pos, large.2, Or.inr large⟩
    · exact notAbsorbed ⟨large.2, isZero ▸ aleph0_pos, Or.inl large⟩

/-- A beth number to the power of a smaller one is itself. -/
theorem beth_power_of_lt {j k : Nat} (less : k < j) : beth.{0} j ^ beth.{0} k = beth j := by
  obtain ⟨i, rfl⟩ := Nat.exists_eq_add_of_lt less
  have isSucc : beth.{0} (k + i + 1 : Nat) = 2 ^ beth.{0} (k + i : Nat) := by
    rw [Nat.cast_succ, beth_add_one]
  have atMost : beth.{0} k ≤ beth (k + i : Nat) := beth_le_beth.mpr (Nat.cast_le.mpr (by omega))
  rw [isSucc, ← power_mul, mul_eq_left (aleph0_le_beth _) atMost (beth_ne_zero _)]

/-- Powers with an infinite exponent. -/
theorem represents_pow_ofBeth (representsA : Represents a κ) (atLeastTwo : 2 ≤ κ) (k : Nat)
    : Represents (if a.compare (ofBeth k) = .greater then a else ⟨(ofBeth k).card - 1⟩) (κ ^ beth.{0} k) := by
  obtain ⟨holds, answers⟩ := compare_spec representsA (represents_ofBeth k)
  have isNext : (⟨(ofBeth k).card - 1⟩ : Cardinality) = ofBeth (k + 1) := by
    rw [card_ofBeth, ofBeth, Cardinality.mk.injEq]
    omega
  have isPower (atMost : κ ≤ beth k) : κ ^ beth.{0} k = beth (k + 1 : Nat) := by
    rw [power_eq_two_power (aleph0_le_beth _) atLeastTwo atMost, Nat.cast_succ, beth_add_one]
  cases isComparison : a.compare (ofBeth k) with
  | less =>
      rw [isComparison] at holds
      rw [if_neg nofun, isNext, isPower (le_of_lt holds)]
      exact represents_ofBeth (k + 1)
  | equal =>
      rw [isComparison] at holds
      rw [if_neg nofun, isNext, isPower (le_of_eq holds)]
      exact represents_ofBeth (k + 1)
  | greater =>
      rw [isComparison] at holds
      rw [if_pos rfl]
      rcases representsA.cases with ⟨n, _, rfl, rfl⟩ | ⟨n, _, _, rfl⟩ | ⟨j, rfl, rfl⟩
      · exact absurd holds (not_lt_of_gt (natCast_lt_beth n k))
      · exact absurd holds (not_lt_of_gt (natCast_lt_beth n k))
      · rw [beth_power_of_lt (Nat.cast_lt.mp (beth_lt_beth.mp holds))]
        exact representsA
  | unknown => exact absurd (answers isComparison).2.2 (not_lt_of_ge (aleph0_le_beth k))

theorem represents_powUnabsorbed (representsA : Represents a κ) (representsC : Represents c μ)
    (notAbsorbed : ¬ (κ < ℵ₀ ∧ μ < ℵ₀ ∧ (IsLarge κ ∨ IsLarge μ)))
    : Represents (a.powUnabsorbed c) (κ ^ μ) := by
  have isZeroA := compare_ofInteger representsA (show 0 < 2 ^ 64 by decide)
  have isOneA := compare_ofInteger representsA (show 1 < 2 ^ 64 by decide)
  have isZeroC := compare_ofInteger representsC (show 0 < 2 ^ 64 by decide)
  have isOneC := compare_ofInteger representsC (show 1 < 2 ^ 64 by decide)
  rw [Nat.cast_zero] at isZeroA isZeroC
  rw [Nat.cast_one] at isOneA isOneC
  rw [powUnabsorbed]
  by_cases zeroC : μ = 0
  · rw [if_pos (isZeroC.mpr zeroC), zeroC, power_zero, ← Nat.cast_one]
    exact represents_ofInteger 1
  rw [if_neg (isZeroC.not.mpr zeroC)]
  by_cases zeroA : κ = 0
  · rw [if_pos (isZeroA.mpr zeroA), zeroA, zero_power zeroC, ← zeroA]
    exact representsA
  rw [if_neg (isZeroA.not.mpr zeroA)]
  by_cases oneA : κ = 1
  · rw [if_pos (isOneA.mpr oneA), oneA, one_power, ← oneA]
    exact representsA
  rw [if_neg (isOneA.not.mpr oneA)]
  by_cases oneC : μ = 1
  · rw [if_pos (isOneC.mpr oneC), oneC, power_one]
    exact representsA
  rw [if_neg (isOneC.not.mpr oneC)]
  rcases operands_of_not_absorbed representsA representsC notAbsorbed with
    ⟨n, m, ⟨_, rfl, rfl⟩, _, rfl, rfl⟩ | ⟨notFinite, infinite, _⟩
  · rw [← Nat.cast_zero, Nat.cast_inj] at zeroA
    rw [← Nat.cast_one, Nat.cast_inj] at oneA
    rw [power_natCast, ← Nat.cast_pow, if_pos (by simp)]
    by_cases big : 64 ≤ m
    · rw [if_pos (by simp; omega)]
      refine represents_of_isLarge (by decide) (isLarge_natCast.mpr ?_)
      calc 2 ^ 64 ≤ 2 ^ m := Nat.pow_le_pow_right (by omega) big
        _ ≤ n ^ m := Nat.pow_le_pow_left (by omega) m
    · rw [if_neg (by simp; omega)]
      have isPower : (⟨((ofInteger n).card - 1) ^ ((ofInteger m).card - 1).toNat + 1⟩ : Cardinality)
          = ofInteger (n ^ m) := by
        simp [ofInteger]
      rw [isPower]
      exact represents_ofInteger (n ^ m)
  · rw [if_neg (by simp [notFinite])]
    by_cases finiteC : c.isFinite = true
    · have notFiniteA : a.isFinite = false := by simpa [finiteC] using notFinite
      rw [if_pos (by simp [notFiniteA, finiteC])]
      obtain ⟨m, rfl⟩ := lt_aleph0.mp (representsC.isFinite_iff.mp finiteC)
      have infiniteA : ℵ₀ ≤ κ := infinite.resolve_right (not_le_of_gt natCast_lt_aleph0)
      have positive : 1 ≤ m := Nat.one_le_iff_ne_zero.mpr (fun isZero => zeroC (by rw [isZero, Nat.cast_zero]))
      rw [power_natCast, power_nat_eq infiniteA positive]
      exact representsA
    · rw [if_neg (by simp [finiteC])]
      have atLeastTwo : 2 ≤ κ := by
        by_contra notTwo
        obtain ⟨n, rfl⟩ := lt_aleph0.mp ((not_le.mp notTwo).trans (natCast_lt_aleph0 (n := 2)))
        rw [← Nat.cast_zero, Nat.cast_inj] at zeroA
        rw [← Nat.cast_one, Nat.cast_inj] at oneA
        exact notTwo (Nat.ofNat_le_cast.mpr (by omega))
      rcases representsC.cases with ⟨m, _, rfl, rfl⟩ | ⟨m, isLarge, _, rfl⟩ | ⟨k, rfl, rfl⟩
      · exact absurd (isFinite_ofInteger m) finiteC
      · exact absurd (isFinite_of_isLargeFinite isLarge) finiteC
      · exact represents_pow_ofBeth representsA atLeastTwo k

theorem pow_isLarge_iff {n m : Nat} (either : 2 ^ 64 ≤ n ∨ 2 ^ 64 ≤ m)
    : 2 ^ 64 ≤ n ^ m ↔ ¬ (2 ^ 64 ≤ n ∧ m = 0) ∧ ¬ (n ≤ 1 ∧ 2 ^ 64 ≤ m) := by
  constructor
  · intro large
    refine ⟨fun ⟨_, isZero⟩ => ?_, fun ⟨atMostOne, _⟩ => ?_⟩
    · rw [isZero, Nat.pow_zero] at large
      omega
    · have atMost : n ^ m ≤ 1 ^ m := Nat.pow_le_pow_left atMostOne m
      rw [Nat.one_pow] at atMost
      omega
  · rintro ⟨notZero, notOne⟩
    by_cases base : 2 ^ 64 ≤ n
    · exact base.trans (Nat.le_self_pow (by omega) n)
    · have exponent : 2 ^ 64 ≤ m := by omega
      calc 2 ^ 64 ≤ m := exponent
        _ ≤ 2 ^ m := Nat.le_of_lt Nat.lt_two_pow_self
        _ ≤ n ^ m := Nat.pow_le_pow_left (by omega) m

/-- The exponent zero and the bases zero and one are absorbed by the ceiling. -/
theorem represents_pow_iff (representsA : Represents a κ) (representsC : Represents c μ)
    : Represents (a.pow c) (κ ^ μ) ↔ ¬ (IsLarge κ ∧ μ = 0) ∧ ¬ (κ ≤ 1 ∧ IsLarge μ) := by
  rw [pow]
  rcases unlessAbsorbed_spec representsA representsC (a.powUnabsorbed c) with
    ⟨finiteA, finiteC, either, isLarge⟩ | ⟨notAbsorbed, isResult⟩
  · rw [represents_iff_of_isLargeFinite isLarge]
    obtain ⟨n, rfl⟩ := lt_aleph0.mp finiteA
    obtain ⟨m, rfl⟩ := lt_aleph0.mp finiteC
    rw [isLarge_natCast, isLarge_natCast] at either
    rw [← Nat.cast_one, Nat.cast_le, Nat.cast_eq_zero, isLarge_natCast, isLarge_natCast,
      ← pow_isLarge_iff either, ← isLarge_natCast, power_natCast, Nat.cast_pow]
  · rw [isResult, iff_true_left (represents_powUnabsorbed representsA representsC notAbsorbed)]
    refine ⟨fun ⟨large, isZero⟩ => ?_, fun ⟨atMostOne, large⟩ => ?_⟩
    · exact notAbsorbed ⟨large.2, isZero ▸ aleph0_pos, Or.inl large⟩
    · exact notAbsorbed ⟨atMostOne.trans_lt one_lt_aleph0, large.2, Or.inr large⟩

-- Expressions

inductive Expression
  | finite (n : Nat)
  | beth (k : Nat)
  | add (a c : Expression)
  | mul (a c : Expression)
  | pow (a c : Expression)

namespace Expression

/-- What is computed. -/
def eval : Expression → Cardinality
  | .finite n => ofInteger n
  | .beth k => ofBeth k
  | .add a c => a.eval.add c.eval
  | .mul a c => a.eval.mul c.eval
  | .pow a c => a.eval.pow c.eval

/-- The true cardinality. -/
noncomputable def value : Expression → Cardinal.{0}
  | .finite n => n
  | .beth k => Cardinal.beth k
  | .add a c => a.value + c.value
  | .mul a c => a.value * c.value
  | .pow a c => a.value ^ c.value

def subexpressions : Expression → List Expression
  | .finite n => [.finite n]
  | .beth k => [.beth k]
  | .add a c => .add a c :: (a.subexpressions ++ c.subexpressions)
  | .mul a c => .mul a c :: (a.subexpressions ++ c.subexpressions)
  | .pow a c => .pow a c :: (a.subexpressions ++ c.subexpressions)

/-- A zero or one that decides the result meets an operand at the ceiling. -/
def AbsorbsLarge : Expression → Prop
  | .finite _ | .beth _ | .add _ _ => False
  | .mul a c => (a.value = 0 ∧ IsLarge c.value) ∨ (IsLarge a.value ∧ c.value = 0)
  | .pow a c => (IsLarge a.value ∧ c.value = 0) ∨ (a.value ≤ 1 ∧ IsLarge c.value)

theorem mem_subexpressions_self (e : Expression) : e ∈ e.subexpressions := by
  cases e with
  | finite n => exact List.mem_singleton_self _
  | beth k => exact List.mem_singleton_self _
  | add a c => exact List.mem_cons_self ..
  | mul a c => exact List.mem_cons_self ..
  | pow a c => exact List.mem_cons_self ..

/-- An operation is right if and only if it does not absorb an operand at the ceiling. -/
theorem all_subexpressions_iff {e a c : Expression} (isStep : Represents a.eval a.value
      → Represents c.eval c.value → (Represents e.eval e.value ↔ ¬ e.AbsorbsLarge))
    (left : (∀ s ∈ a.subexpressions, Represents s.eval s.value) ↔ ∀ s ∈ a.subexpressions, ¬ s.AbsorbsLarge)
    (right : (∀ s ∈ c.subexpressions, Represents s.eval s.value) ↔ ∀ s ∈ c.subexpressions, ¬ s.AbsorbsLarge)
    : (∀ s ∈ e :: (a.subexpressions ++ c.subexpressions), Represents s.eval s.value)
      ↔ ∀ s ∈ e :: (a.subexpressions ++ c.subexpressions), ¬ s.AbsorbsLarge := by
  rw [List.forall_mem_cons, List.forall_mem_cons, List.forall_mem_append, List.forall_mem_append, ← left,
    ← right]
  refine and_congr_left (fun below => ?_)
  exact isStep (below.1 a (mem_subexpressions_self a)) (below.2 c (mem_subexpressions_self c))

/-- Every subexpression is right just if none absorbs a large finite base, by induction on the expression. -/
theorem represents_iff (e : Expression)
    : (∀ s ∈ e.subexpressions, Represents s.eval s.value) ↔ ∀ s ∈ e.subexpressions, ¬ s.AbsorbsLarge := by
  induction e with
  | finite n =>
      rw [subexpressions, List.forall_mem_singleton, List.forall_mem_singleton]
      exact iff_of_true (represents_ofInteger n) id
  | beth k =>
      rw [subexpressions, List.forall_mem_singleton, List.forall_mem_singleton]
      exact iff_of_true (represents_ofBeth k) id
  | add a c left right =>
      refine all_subexpressions_iff (fun representsA representsC => ?_) left right
      exact iff_of_true (represents_add representsA representsC) id
  | mul a c left right =>
      refine all_subexpressions_iff (fun representsA representsC => ?_) left right
      rw [AbsorbsLarge, not_or]
      exact represents_mul_iff representsA representsC
  | pow a c left right =>
      refine all_subexpressions_iff (fun representsA representsC => ?_) left right
      rw [AbsorbsLarge, not_or]
      exact represents_pow_iff representsA representsC

end Expression

/-- Every cardinality computed in an expression is exact or at the ceiling if and only if none of its
operations absorbs an operand at the ceiling, and then comparisons are right. -/
theorem cardinalities_represent (e e' : Expression)
    : ((∀ s ∈ e.subexpressions, Represents s.eval s.value) ↔ ∀ s ∈ e.subexpressions, ¬ s.AbsorbsLarge)
      ∧ ((∀ s ∈ e.subexpressions, ¬ s.AbsorbsLarge) → (∀ s ∈ e'.subexpressions, ¬ s.AbsorbsLarge)
        → (e.eval.compare e'.eval).Holds e.value e'.value) := by
  refine ⟨Expression.represents_iff e, fun notAbsorbs notAbsorbs' => ?_⟩
  have represents := (Expression.represents_iff e).mpr notAbsorbs e e.mem_subexpressions_self
  have represents' := (Expression.represents_iff e').mpr notAbsorbs' e' e'.mem_subexpressions_self
  exact (compare_spec represents represents').1

/-- Real numbers to the power of the integers are compared with the real numbers. -/
theorem reals_to_integers
    : ((Expression.pow (.beth 1) (.beth 0)).eval.compare (Expression.beth 1).eval).Holds
        (Expression.pow (.beth 1) (.beth 0)).value (Expression.beth 1).value := by
  have infinite (k : Nat) : ¬ IsLarge (Cardinal.beth k) :=
    fun isLarge => absurd isLarge.2 (not_lt_of_ge (aleph0_le_beth k))
  refine (cardinalities_represent _ _).2 ?_ ?_
  · simp only [Expression.subexpressions, List.cons_append, List.nil_append, List.forall_mem_cons,
      Expression.AbsorbsLarge, Expression.value, infinite, false_and, and_false, or_self, not_false_eq_true,
      true_and]
    simp
  · simp [Expression.subexpressions, Expression.AbsorbsLarge]

/-- Zero times a number at the ceiling is at the ceiling, and so is any power with it as base or
exponent. -/
theorem ceiling_absorbs_zero
    : (Expression.mul (.finite 0) (.finite (2 ^ 64))).eval.isLargeFinite = true
      ∧ (Expression.mul (.finite 0) (.finite (2 ^ 64))).value = 0
      ∧ (Expression.pow (.finite (2 ^ 64)) (.finite 0)).eval.isLargeFinite = true
      ∧ (Expression.pow (.finite (2 ^ 64)) (.finite 0)).value = 1
      ∧ (Expression.mul (.finite 0) (.finite (2 ^ 64))).eval.compare (Expression.finite 1).eval = .greater := by
  refine ⟨by decide, ?_, by decide, ?_, by decide⟩
  · simp [Expression.value]
  · simp [Expression.value]

end Cardinality

end Ava6.Util
