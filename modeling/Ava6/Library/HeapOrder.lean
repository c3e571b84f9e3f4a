import Mathlib.Logic.Equiv.Basic
import Mathlib.Order.Nat

/-! The order of a binary heap on the elements at the indices below a bound, under a strict weak order, and what is left
of it while one element is sifted up or down by swaps with its parent or with a child.
-/

namespace Ava6.Library.HeapOrder

def parent (i : Nat) : Nat := (i - 1) / 2

def left (i : Nat) : Nat := 2 * i + 1

def right (i : Nat) : Nat := 2 * i + 2

theorem parent_lt {i : Nat} (positive : 0 < i) : parent i < i := by
  unfold parent
  omega

theorem parent_left (i : Nat) : parent (left i) = i := by
  unfold parent left
  omega

theorem parent_right (i : Nat) : parent (right i) = i := by
  unfold parent right
  omega

theorem eq_left_or_right {i : Nat} (positive : 0 < i) : i = left (parent i) ∨ i = right (parent i) := by
  unfold parent left right
  omega

variable {α : Type*} {lt : α → α → Prop}

section StrictWeakOrder

variable [IsStrictWeakOrder α lt]

theorem not_lt_trans {x y z : α} (first : ¬lt x y) (second : ¬lt y z) : ¬lt x z := by
  intro less
  have notBefore : ¬lt y x := fun before => second (trans_of lt before less)
  have notAfter : ¬lt z y := fun after => first (trans_of lt less after)
  exact (IsStrictWeakOrder.incomp_trans x y z ⟨first, notBefore⟩ ⟨second, notAfter⟩).1 less

theorem not_lt_of_lt {x y : α} (less : lt x y) : ¬lt y x := asymm_of lt less

end StrictWeakOrder

section Order

variable (lt) (n : Nat) (f : Nat → α)

/-- No parent is less than a child. -/
def Ordered : Prop := ∀ i, 0 < i → i < n → ¬lt (f (parent i)) (f i)

/-- No child of `c` is above the parent of `c`. -/
def Bridged (c : Nat) : Prop := ∀ i, 0 < i → i < n → parent i = c → 0 < c → ¬lt (f (parent c)) (f i)

/-- Only the element at `c` may be out of order. -/
structure OrderedExcept (c : Nat) : Prop where
  pairs : ∀ i, 0 < i → i < n → i ≠ c → parent i ≠ c → ¬lt (f (parent i)) (f i)
  bridged : Bridged lt n f c

/-- Only the pair of `c` and its parent may be out of order. -/
structure OrderedBelow (c : Nat) : Prop where
  pairs : ∀ i, 0 < i → i < n → i ≠ c → ¬lt (f (parent i)) (f i)
  bridged : Bridged lt n f c

/-- Only pairs of `c` and its children may be out of order. -/
structure OrderedAbove (c : Nat) : Prop where
  pairs : ∀ i, 0 < i → i < n → parent i ≠ c → ¬lt (f (parent i)) (f i)
  bridged : Bridged lt n f c

end Order

variable {n c : Nat} {f : Nat → α}

theorem Ordered.congr {g : Nat → α} (ordered : Ordered lt n f) (same : ∀ i < n, g i = f i) : Ordered lt n g := by
  intro i positive inside
  rw [same i inside, same (parent i) ((parent_lt positive).trans inside)]
  exact ordered i positive inside

theorem Ordered.mono {m : Nat} (ordered : Ordered lt n f) (isLess : m ≤ n) : Ordered lt m f :=
  fun i positive inside => ordered i positive (inside.trans_le isLess)

theorem OrderedBelow.ordered (below : OrderedBelow lt n f c) (fits : 0 < c → ¬lt (f (parent c)) (f c))
    : Ordered lt n f := by
  intro i positive inside
  by_cases isHole : i = c
  · exact isHole ▸ fits (isHole ▸ positive)
  · exact below.pairs i positive inside isHole

theorem OrderedAbove.ordered (above : OrderedAbove lt n f c)
    (fits : ∀ i, 0 < i → i < n → parent i = c → ¬lt (f c) (f i))
    : Ordered lt n f := by
  intro i positive inside
  by_cases isParent : parent i = c
  · exact isParent ▸ fits i positive inside isParent
  · exact above.pairs i positive inside isParent

variable [IsStrictWeakOrder α lt]

/-- The first element is not less than any other. -/
theorem Ordered.root_max (ordered : Ordered lt n f) {i : Nat} (inside : i < n) : ¬lt (f 0) (f i) := by
  induction i using Nat.strongRecOn with
  | ind i ih =>
      rcases Nat.eq_zero_or_pos i with rfl | positive
      · exact irrefl_of lt (f 0)
      · have isLess := parent_lt positive
        exact not_lt_trans (ih (parent i) isLess (isLess.trans inside)) (ordered i positive inside)

/-- Any element of an ordered heap may be replaced: then only it may be out of order. -/
theorem Ordered.replaced {g : Nat → α} (ordered : Ordered lt n f) (same : ∀ i < n, i ≠ c → g i = f i)
    : OrderedExcept lt n g c := by
  refine ⟨fun i positive inside notHole notChild => ?_, fun i positive inside isChild holePositive => ?_⟩
  · rw [same i inside notHole, same (parent i) ((parent_lt positive).trans inside) notChild]
    exact ordered i positive inside
  · have childAfter : c < i := isChild ▸ parent_lt positive
    have parentBefore := parent_lt holePositive
    rw [same i inside (Nat.ne_of_gt childAfter), same (parent c) (by omega) (Nat.ne_of_lt parentBefore)]
    refine not_lt_trans (ordered c holePositive (childAfter.trans inside)) ?_
    exact isChild ▸ ordered i positive inside

/-- An element above its parent is above its children. -/
theorem OrderedExcept.below (except : OrderedExcept lt n f c) (positive : 0 < c) (isAbove : lt (f (parent c)) (f c))
    : OrderedBelow lt n f c := by
  refine ⟨fun i isPositive inside notHole => ?_, except.bridged⟩
  by_cases isChild : parent i = c
  · intro less
    rw [isChild] at less
    exact except.bridged i isPositive inside isChild positive (trans_of lt isAbove less)
  · exact except.pairs i isPositive inside notHole isChild

omit [IsStrictWeakOrder α lt] in
theorem OrderedExcept.above (except : OrderedExcept lt n f c) (fits : 0 < c → ¬lt (f (parent c)) (f c))
    : OrderedAbove lt n f c := by
  refine ⟨fun i positive inside notChild => ?_, except.bridged⟩
  by_cases isHole : i = c
  · exact isHole ▸ fits (isHole ▸ positive)
  · exact except.pairs i positive inside isHole notChild

/-- A swap with a parent that is less moves the place that may be out of order up. -/
theorem OrderedBelow.swap (below : OrderedBelow lt n f c) (positive : 0 < c) (inside : c < n)
    (isAbove : lt (f (parent c)) (f c))
    : OrderedBelow lt n (f ∘ Equiv.swap c (parent c)) (parent c) := by
  have before := parent_lt positive
  have atParent : (f ∘ Equiv.swap c (parent c)) (parent c) = f c := congrArg f (Equiv.swap_apply_right _ _)
  have atHole : (f ∘ Equiv.swap c (parent c)) c = f (parent c) := congrArg f (Equiv.swap_apply_left _ _)
  have other (i : Nat) (notHole : i ≠ c) (notParent : i ≠ parent c) : (f ∘ Equiv.swap c (parent c)) i = f i :=
    congrArg f (Equiv.swap_apply_of_ne_of_ne notHole notParent)
  have parentFits (isPositive : 0 < parent c) : ¬lt (f (parent (parent c))) (f (parent c)) :=
    below.pairs (parent c) isPositive (before.trans inside) (Nat.ne_of_lt before)
  constructor
  · intro i isPositive isInside notParent
    by_cases isHole : i = c
    · rw [isHole, atParent, atHole]
      exact not_lt_of_lt isAbove
    · rw [other i isHole notParent]
      by_cases isChild : parent i = c
      · rw [isChild, atHole]
        exact below.bridged i isPositive isInside isChild positive
      · by_cases isSibling : parent i = parent c
        · rw [isSibling, atParent]
          intro less
          exact below.pairs i isPositive isInside isHole (isSibling ▸ trans_of lt isAbove less)
        · rw [other (parent i) isChild isSibling]
          exact below.pairs i isPositive isInside isHole
  · intro i isPositive isInside isSibling parentPositive
    have grandBefore := parent_lt parentPositive
    rw [other (parent (parent c)) (by omega) (by omega)]
    by_cases isHole : i = c
    · rw [isHole, atHole]
      exact parentFits parentPositive
    · have siblingAfter : parent c < i := isSibling ▸ parent_lt isPositive
      rw [other i isHole (Nat.ne_of_gt siblingAfter)]
      exact not_lt_trans (parentFits parentPositive) (isSibling ▸ below.pairs i isPositive isInside isHole)

/-- A swap with a child that is greater, and not less than the other, moves the place that may be out of order down. -/
theorem OrderedAbove.swap (above : OrderedAbove lt n f c) {d : Nat} (positive : 0 < d) (inside : d < n)
    (isChild : parent d = c) (isBelow : lt (f c) (f d))
    (greatest : ∀ i, 0 < i → i < n → parent i = c → ¬lt (f d) (f i))
    : OrderedAbove lt n (f ∘ Equiv.swap c d) d := by
  have before : c < d := isChild ▸ parent_lt positive
  have atHole : (f ∘ Equiv.swap c d) c = f d := congrArg f (Equiv.swap_apply_left _ _)
  have atChild : (f ∘ Equiv.swap c d) d = f c := congrArg f (Equiv.swap_apply_right _ _)
  have other (i : Nat) (notHole : i ≠ c) (notChild : i ≠ d) : (f ∘ Equiv.swap c d) i = f i :=
    congrArg f (Equiv.swap_apply_of_ne_of_ne notHole notChild)
  constructor
  · intro i isPositive isInside notGrandchild
    by_cases isSelf : i = d
    · rw [isSelf, isChild, atHole, atChild]
      exact not_lt_of_lt isBelow
    · by_cases isHole : i = c
      · subst isHole
        have parentBefore := parent_lt isPositive
        rw [atHole, other (parent i) (by omega) (by omega)]
        exact above.bridged d positive inside isChild isPositive
      · rw [other i isHole isSelf]
        by_cases isSibling : parent i = c
        · rw [isSibling, atHole]
          exact greatest i isPositive isInside isSibling
        · rw [other (parent i) isSibling notGrandchild]
          exact above.pairs i isPositive isInside isSibling
  · intro i isPositive isInside isGrandchild _
    have after : d < i := isGrandchild ▸ parent_lt isPositive
    rw [isChild, atHole, other i (by omega) (by omega)]
    exact isGrandchild ▸ above.pairs i isPositive isInside (by omega)

end Ava6.Library.HeapOrder
