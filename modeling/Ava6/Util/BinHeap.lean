import Mathlib.Data.List.GetD
import Mathlib.Data.List.Nodup
import Ava6.Library.HeapOrder

/-! Binary heaps whose elements are found again by handles. A handle is the address of an allocated element, which stores
its own position; an address may be given out again after its element was deleted. Sizes are not bounded.
-/

namespace Ava6.Util

open Library HeapOrder

-- Heaps

abbrev Pointer := Nat

structure HElement (T : Type*) where
  pos : Nat
  elem : T

/-- The heap holds the addresses of its elements; what is stored at other addresses does not matter. -/
structure BinaryHeap (T : Type*) where
  heap : List Pointer
  memory : Pointer → HElement T

namespace BinaryHeap

variable {T : Type*}

def size (h : BinaryHeap T) : Nat := h.heap.length

def last (h : BinaryHeap T) : Nat := h.size - 1

/-- The address at an index of the heap. -/
def slot (h : BinaryHeap T) (i : Nat) : Pointer := h.heap.getD i 0

def elemAt (h : BinaryHeap T) (i : Nat) : T := (h.memory (h.slot i)).elem

def top (h : BinaryHeap T) : Option T := h.heap.head?.map fun he => (h.memory he).elem

def setPos (memory : Pointer → HElement T) (he : Pointer) (pos : Nat) : Pointer → HElement T :=
  Function.update memory he { memory he with pos := pos }

def swap (h : BinaryHeap T) (i j : Nat) (atI atJ : Pointer) : BinaryHeap T :=
  ⟨(h.heap.set i atJ).set j atI, setPos (setPos h.memory atI j) atJ i⟩

def swapIndices (h : BinaryHeap T) (i j : Nat) : BinaryHeap T := h.swap i j (h.slot i) (h.slot j)

/-- The element is allocated at `he`. -/
def pushBack (h : BinaryHeap T) (he : Pointer) (toAdded : T) : BinaryHeap T :=
  ⟨h.heap ++ [he], Function.update h.memory he ⟨h.size, toAdded⟩⟩

def setElem (h : BinaryHeap T) (he : Pointer) (val : T) : BinaryHeap T :=
  { h with memory := Function.update h.memory he { h.memory he with elem := val } }

def popBack (h : BinaryHeap T) : BinaryHeap T := { h with heap := h.heap.dropLast }

section Operations

variable (lt : T → T → Bool)

/-- The loop reads the position of the element again after each swap; it has no result if it does not end in time. -/
def upHeap (he : Pointer) : Nat → BinaryHeap T → Option (BinaryHeap T)
  | 0, _ => none
  | steps + 1, h =>
      let curr := (h.memory he).pos
      if curr ≠ 0 then
        let atParent := h.slot (parent curr)
        if lt (h.memory atParent).elem (h.memory he).elem then
          upHeap he steps (h.swap curr (parent curr) he atParent)
        else some h
      else some h

def downHeap (he : Pointer) : Nat → BinaryHeap T → Option (BinaryHeap T)
  | 0, _ => none
  | steps + 1, h =>
      let curr := (h.memory he).pos
      let atLeft := h.slot (left curr)
      let atRight := h.slot (right curr)
      if right curr < h.size then
        if lt (h.memory he).elem (h.memory atLeft).elem then
          if lt (h.memory atLeft).elem (h.memory atRight).elem then
            downHeap he steps (h.swap curr (right curr) he atRight)
          else downHeap he steps (h.swap curr (left curr) he atLeft)
        else if lt (h.memory he).elem (h.memory atRight).elem then
          downHeap he steps (h.swap curr (right curr) he atRight)
        else some h
      else if left curr < h.size then
        if lt (h.memory he).elem (h.memory atLeft).elem then some (h.swap curr (left curr) he atLeft)
        else some h
      else some h

def push (he : Pointer) (toAdded : T) (h : BinaryHeap T) : Option (BinaryHeap T) :=
  upHeap lt he (h.size + 1) (h.pushBack he toAdded)

def pop (h : BinaryHeap T) : Option (BinaryHeap T) :=
  let h := (h.swapIndices 0 h.last).popBack
  if h.size ≠ 0 then downHeap lt (h.slot 0) (h.size + 1) h else some h

/-- The order of an element and its neighbours is restored. -/
def updateOrder (he : Pointer) (h : BinaryHeap T) : Option (BinaryHeap T) :=
  let pos := (h.memory he).pos
  if pos = 0 then downHeap lt he (h.size + 1) h
  else if lt (h.elemAt (parent pos)) (h.memory he).elem then upHeap lt he (h.size + 1) h
  else downHeap lt he (h.size + 1) h

def update (he : Pointer) (val : T) (h : BinaryHeap T) : Option (BinaryHeap T) :=
  updateOrder lt he (h.setElem he val)

def erase (he : Pointer) (h : BinaryHeap T) : Option (BinaryHeap T) :=
  let pos := (h.memory he).pos
  if pos = 0 then pop lt h
  else if pos = h.last then some h.popBack
  else
    let h := (h.swapIndices pos h.last).popBack
    updateOrder lt (h.slot pos) h

end Operations

-- Positions

/-- Each element is in the heap once, and stores where. -/
structure Placed (h : BinaryHeap T) : Prop where
  nodup : h.heap.Nodup
  pos : ∀ i < h.size, (h.memory (h.slot i)).pos = i

/-- The same elements at the same addresses, in some order. -/
structure Rearranged (h h' : BinaryHeap T) : Prop where
  placed : h'.Placed
  perm : h'.heap.Perm h.heap
  elems : ∀ he, (h'.memory he).elem = (h.memory he).elem

variable {h h' h'' : BinaryHeap T} {i j : Nat}

theorem Placed.refl (placed : h.Placed) : Rearranged h h := ⟨placed, .refl _, fun _ => rfl⟩

theorem Rearranged.trans (first : Rearranged h h') (second : Rearranged h' h'') : Rearranged h h'' :=
  ⟨second.placed, second.perm.trans first.perm, fun he => (second.elems he).trans (first.elems he)⟩

theorem slot_eq_getElem (inside : i < h.heap.length) : h.slot i = h.heap[i] := List.getD_eq_getElem _ _ inside

theorem slot_mem (inside : i < h.size) : h.slot i ∈ h.heap := by
  rw [slot_eq_getElem inside]
  exact List.getElem_mem inside

theorem exists_slot {he : Pointer} (member : he ∈ h.heap) : ∃ i < h.size, h.slot i = he := by
  obtain ⟨i, inside, isAt⟩ := List.mem_iff_getElem.mp member
  exact ⟨i, inside, (slot_eq_getElem inside).trans isAt⟩

theorem Placed.slot_inj (placed : h.Placed) (insideI : i < h.size) (insideJ : j < h.size) : h.slot i = h.slot j ↔ i = j := by
  constructor
  · intro same
    rw [← placed.pos i insideI, same, placed.pos j insideJ]
  · rintro rfl
    rfl

@[simp]
theorem size_swap {atI atJ : Pointer} : (h.swap i j atI atJ).size = h.size := by
  rw [size, swap, List.length_set, List.length_set, size]

theorem slot_swapIndices (insideI : i < h.size) (insideJ : j < h.size) (k : Nat)
    : (h.swapIndices i j).slot k = h.slot (Equiv.swap i j k) := by
  rw [swapIndices, swap, slot, List.getD_eq_getElem?_getD, List.getElem?_set, List.getElem?_set, List.length_set]
  by_cases isJ : j = k
  · rw [if_pos isJ, if_pos (show j < h.heap.length from insideJ), ← isJ, Equiv.swap_apply_right, Option.getD_some]
  · rw [if_neg isJ]
    by_cases isI : i = k
    · rw [if_pos isI, if_pos (show i < h.heap.length from insideI), ← isI, Equiv.swap_apply_left, Option.getD_some]
    · rw [if_neg isI, Equiv.swap_apply_of_ne_of_ne (Ne.symm isI) (Ne.symm isJ), slot,
        List.getD_eq_getElem?_getD]

theorem elem_setPos (memory : Pointer → HElement T) (he he' : Pointer) (pos : Nat)
    : (setPos memory he pos he').elem = (memory he').elem := by
  by_cases same : he' = he
  · rw [setPos, same, Function.update_self]
  · rw [setPos, Function.update_of_ne same]

theorem pos_setPos_self (memory : Pointer → HElement T) (he : Pointer) (pos : Nat)
    : (setPos memory he pos he).pos = pos := by
  rw [setPos, Function.update_self]

theorem pos_setPos_of_ne {memory : Pointer → HElement T} {he he' : Pointer} {pos : Nat} (differ : he' ≠ he)
    : (setPos memory he pos he').pos = (memory he').pos := by
  rw [setPos, Function.update_of_ne differ]

theorem Placed.swapIndices (placed : h.Placed) (insideI : i < h.size) (insideJ : j < h.size)
    : Rearranged h (h.swapIndices i j) := by
  have isPerm : (h.swapIndices i j).heap.Perm h.heap := by
    rw [BinaryHeap.swapIndices, swap, slot_eq_getElem insideI, slot_eq_getElem insideJ]
    exact List.set_set_perm insideI insideJ
  refine ⟨⟨isPerm.nodup_iff.mpr placed.nodup, fun k insideK => ?_⟩, isPerm, fun he => ?_⟩
  · rw [BinaryHeap.swapIndices, size_swap] at insideK
    rw [slot_swapIndices insideI insideJ]
    by_cases isI : k = i
    · rw [isI, Equiv.swap_apply_left]
      exact pos_setPos_self _ _ _
    · have differJ : h.slot k ≠ h.slot i := mt (placed.slot_inj insideK insideI).mp isI
      by_cases isJ : k = j
      · rw [isJ, Equiv.swap_apply_right]
        refine (pos_setPos_of_ne ?_).trans (pos_setPos_self _ _ _)
        exact isJ ▸ differJ.symm
      · rw [Equiv.swap_apply_of_ne_of_ne isI isJ]
        refine (pos_setPos_of_ne (mt (placed.slot_inj insideK insideJ).mp isJ)).trans ?_
        exact (pos_setPos_of_ne differJ).trans (placed.pos k insideK)
  · exact (elem_setPos _ _ _ _).trans (elem_setPos _ _ _ _)

theorem elemAt_swapIndices (placed : h.Placed) (insideI : i < h.size) (insideJ : j < h.size)
    : (h.swapIndices i j).elemAt = h.elemAt ∘ Equiv.swap i j := by
  funext k
  rw [elemAt, (placed.swapIndices insideI insideJ).elems, slot_swapIndices insideI insideJ]
  rfl

-- Sifting

/-- The comparator as a relation. -/
abbrev Less (lt : T → T → Bool) (a b : T) : Prop := lt a b = true

/-- A loop ends with the same elements, in order. -/
def Restores (lt : T → T → Bool) (h : BinaryHeap T) (result : Option (BinaryHeap T)) : Prop :=
  ∃ h', result = some h' ∧ Rearranged h h' ∧ Ordered (Less lt) h'.size h'.elemAt

variable {lt : T → T → Bool} {steps c : Nat}

theorem Restores.of_rearranged {result : Option (BinaryHeap T)} (restores : Restores lt h' result)
    (first : Rearranged h h')
    : Restores lt h result := by
  obtain ⟨h'', isResult, rearranged, ordered⟩ := restores
  exact ⟨h'', isResult, first.trans rearranged, ordered⟩

theorem Placed.restores (placed : h.Placed) (ordered : Ordered (Less lt) h.size h.elemAt)
    : Restores lt h (some h) :=
  ⟨h, rfl, placed.refl, ordered⟩

variable [IsStrictWeakOrder T (Less lt)]

theorem upHeap_restores (placed : h.Placed) (inside : c < h.size)
    (below : OrderedBelow (Less lt) h.size h.elemAt c) (enough : c < steps)
    : Restores lt h (upHeap lt (h.slot c) steps h) := by
  induction steps generalizing h c with
  | zero => omega
  | succ steps ih =>
      rw [upHeap, placed.pos c inside]
      simp only
      split
      · next notRoot =>
          have positive := Nat.pos_of_ne_zero notRoot
          have before := parent_lt positive
          have parentInside := before.trans inside
          split
          · next isAbove =>
              have rearranged := placed.swapIndices inside parentInside
              have isNext : (h.swapIndices c (parent c)).slot (parent c) = h.slot c := by
                rw [slot_swapIndices inside parentInside, Equiv.swap_apply_right]
              have isBelow : OrderedBelow (Less lt) (h.swapIndices c (parent c)).size (h.swapIndices c (parent c)).elemAt
                  (parent c) := by
                rw [elemAt_swapIndices placed inside parentInside, swapIndices, size_swap]
                exact below.swap positive inside isAbove
              have sifted := ih rearranged.placed (by rwa [swapIndices, size_swap]) isBelow (by omega)
              rw [isNext] at sifted
              exact sifted.of_rearranged rearranged
          · next notAbove => exact placed.restores (below.ordered fun _ => notAbove)
      · next isRoot => exact placed.restores (below.ordered fun positive => absurd positive (by omega))

/-- The element is swapped with the greater child. -/
theorem swap_child (placed : h.Placed) {d : Nat} (positive : 0 < d) (inside : d < h.size) (isChild : parent d = c)
    (above : OrderedAbove (Less lt) h.size h.elemAt c) (isBelow : lt (h.elemAt c) (h.elemAt d) = true)
    (greatest : ∀ i, 0 < i → i < h.size → parent i = c → ¬Less lt (h.elemAt d) (h.elemAt i))
    : Rearranged h (h.swapIndices c d) ∧ (h.swapIndices c d).slot d = h.slot c
      ∧ OrderedAbove (Less lt) h.size (h.swapIndices c d).elemAt d := by
  have insideHole : c < h.size := (isChild ▸ parent_lt positive : c < d).trans inside
  refine ⟨placed.swapIndices insideHole inside, ?_, ?_⟩
  · rw [slot_swapIndices insideHole inside, Equiv.swap_apply_right]
  · rw [elemAt_swapIndices placed insideHole inside]
    exact above.swap positive inside isChild isBelow greatest

omit [IsStrictWeakOrder T (Less lt)] in
theorem children_cases {P : Nat → Prop} (ofLeft : left c < h.size → P (left c)) (ofRight : right c < h.size → P (right c))
    : ∀ i, 0 < i → i < h.size → parent i = c → P i := by
  rintro i positive inside rfl
  rcases eq_left_or_right positive with isLeft | isRight
  · exact isLeft ▸ ofLeft (isLeft ▸ inside)
  · exact isRight ▸ ofRight (isRight ▸ inside)

theorem downHeap_restores (placed : h.Placed) (inside : c < h.size)
    (above : OrderedAbove (Less lt) h.size h.elemAt c) (enough : h.size - c < steps)
    : Restores lt h (downHeap lt (h.slot c) steps h) := by
  induction steps generalizing h c with
  | zero => omega
  | succ steps ih =>
      rw [downHeap, placed.pos c inside]
      have goOn {d : Nat} (positive : 0 < d) (insideD : d < h.size) (isChild : parent d = c)
          (isBelow : lt (h.elemAt c) (h.elemAt d) = true)
          (greatest : ∀ i, 0 < i → i < h.size → parent i = c → ¬Less lt (h.elemAt d) (h.elemAt i))
          : Restores lt h (downHeap lt (h.slot c) steps (h.swapIndices c d)) := by
        obtain ⟨rearranged, isNext, isAbove⟩ := swap_child placed positive insideD isChild above isBelow greatest
        have isLess : c < d := isChild ▸ parent_lt positive
        have sameSize : (h.swapIndices c d).size = h.size := size_swap
        have sifted := ih rearranged.placed (sameSize ▸ insideD) (sameSize ▸ isAbove) (by omega)
        rw [isNext] at sifted
        exact sifted.of_rearranged rearranged
      have leftRight : left c < right c := Nat.lt_succ_self _
      have leftPositive : 0 < left c := Nat.succ_pos _
      split
      · next rightInside =>
          have leftInside := leftRight.trans rightInside
          have goLeft := goOn leftPositive leftInside (parent_left c)
          have goRight := goOn (Nat.succ_pos _) rightInside (parent_right c)
          split
          · next belowLeft =>
              split
              · next leftBelowRight =>
                  refine goRight (trans_of (Less lt) belowLeft leftBelowRight) (children_cases (fun _ => ?_) fun _ => ?_)
                  · exact not_lt_of_lt leftBelowRight
                  · exact irrefl_of (Less lt) _
              · next notBelowRight =>
                  exact goLeft belowLeft (children_cases (fun _ => irrefl_of (Less lt) _) fun _ => notBelowRight)
          · next notBelowLeft =>
              split
              · next belowRight =>
                  refine goRight belowRight (children_cases (fun _ less => notBelowLeft ?_) fun _ => irrefl_of (Less lt) _)
                  exact trans_of (Less lt) belowRight less
              · next notBelowRight =>
                  exact placed.restores (above.ordered (children_cases (fun _ => notBelowLeft) fun _ => notBelowRight))
      · next rightOutside =>
          split
          · next leftInside =>
              split
              · next belowLeft =>
                  have greatest : ∀ i, 0 < i → i < h.size → parent i = c → ¬Less lt (h.elemAt (left c)) (h.elemAt i) :=
                    children_cases (fun _ => irrefl_of (Less lt) _) fun rightInside => absurd rightInside rightOutside
                  obtain ⟨rearranged, -, isAbove⟩ :=
                    swap_child placed leftPositive leftInside (parent_left c) above belowLeft greatest
                  have sameSize : (h.swapIndices c (left c)).size = h.size := size_swap
                  refine ⟨_, rfl, rearranged, sameSize.symm ▸ isAbove.ordered fun i positive insideI isChild => ?_⟩
                  unfold parent at isChild
                  unfold left at isChild
                  unfold right at rightOutside
                  omega
              · next notBelowLeft =>
                  refine placed.restores (above.ordered (children_cases (fun _ => notBelowLeft) fun rightInside => ?_))
                  exact absurd rightInside rightOutside
          · next leftOutside =>
              refine placed.restores (above.ordered (children_cases (fun leftInside => ?_) fun rightInside => ?_))
              · exact absurd leftInside leftOutside
              · exact absurd rightInside rightOutside

-- Operations

theorem updateOrder_restores (placed : h.Placed) (inside : c < h.size)
    (except : OrderedExcept (Less lt) h.size h.elemAt c)
    : Restores lt h (updateOrder lt (h.slot c) h) := by
  have down (fits : 0 < c → ¬Less lt (h.elemAt (parent c)) (h.elemAt c))
      : Restores lt h (downHeap lt (h.slot c) (h.size + 1) h) :=
    downHeap_restores placed inside (except.above fits) (by omega)
  rw [updateOrder, placed.pos c inside]
  split
  · next isRoot => exact down fun positive => absurd positive (by omega)
  · next notRoot =>
      split
      · next isAbove =>
          exact upHeap_restores placed inside (except.below (Nat.pos_of_ne_zero notRoot) isAbove) (by omega)
      · next notAbove => exact down fun _ => notAbove

omit [IsStrictWeakOrder T (Less lt)] in
theorem size_popBack : h.popBack.size = h.size - 1 := List.length_dropLast

omit [IsStrictWeakOrder T (Less lt)] in
theorem slot_popBack (inside : i < h.popBack.size) : h.popBack.slot i = h.slot i := by
  have isLess : i < h.size := by
    rw [size_popBack] at inside
    omega
  rw [slot_eq_getElem inside, slot_eq_getElem isLess]
  exact List.getElem_dropLast _

omit [IsStrictWeakOrder T (Less lt)] in
theorem heap_popBack (isNonEmpty : 0 < h.size) : h.popBack.heap ++ [h.slot h.last] = h.heap := by
  have isCons : h.heap ≠ [] := List.ne_nil_of_length_pos isNonEmpty
  have isLast : h.slot h.last = h.heap.getLast isCons := by
    have lastInside : h.last < h.size := Nat.sub_lt isNonEmpty Nat.one_pos
    rw [slot_eq_getElem lastInside, List.getLast_eq_getElem]
    rfl
  rw [isLast]
  exact List.dropLast_append_getLast isCons

omit [IsStrictWeakOrder T (Less lt)] in
theorem Placed.popBack (placed : h.Placed) : h.popBack.Placed := by
  refine ⟨placed.nodup.sublist (List.dropLast_sublist _), fun i inside => ?_⟩
  rw [slot_popBack inside]
  refine placed.pos i ?_
  rw [size_popBack] at inside
  omega

/-- One element is removed, and the others keep their values. -/
structure Removed (h h' : BinaryHeap T) (he : Pointer) : Prop where
  placed : h'.Placed
  perm : (he :: h'.heap).Perm h.heap
  elems : ∀ he, (h'.memory he).elem = (h.memory he).elem

omit [IsStrictWeakOrder T (Less lt)] in
theorem Removed.rearranged {he : Pointer} (removed : Removed h h' he) (rearranged : Rearranged h' h'')
    : Removed h h'' he :=
  ⟨rearranged.placed, (rearranged.perm.cons he).trans removed.perm,
    fun he' => (rearranged.elems he').trans (removed.elems he')⟩

omit [IsStrictWeakOrder T (Less lt)] in
theorem Placed.removed_last (placed : h.Placed) (isNonEmpty : 0 < h.size) : Removed h h.popBack (h.slot h.last) := by
  refine ⟨placed.popBack, ?_, fun _ => rfl⟩
  exact (List.perm_append_singleton _ _).symm.trans (.of_eq (heap_popBack isNonEmpty))

omit [IsStrictWeakOrder T (Less lt)] in
/-- The last element is moved to the place of one that is removed. -/
theorem Placed.removed_swap (placed : h.Placed) (inside : c < h.size)
    : Removed h (h.swapIndices c h.last).popBack (h.slot c) := by
  have isNonEmpty : 0 < h.size := (Nat.zero_le c).trans_lt inside
  have lastInside : h.last < h.size := Nat.sub_lt isNonEmpty Nat.one_pos
  have rearranged := placed.swapIndices inside lastInside
  have sameSize : (h.swapIndices c h.last).size = h.size := size_swap
  have sameLast : (h.swapIndices c h.last).last = h.last := congrArg (· - 1) sameSize
  have removed := rearranged.placed.removed_last (sameSize.symm ▸ isNonEmpty)
  rw [sameLast, slot_swapIndices inside lastInside, Equiv.swap_apply_right] at removed
  exact ⟨removed.placed, removed.perm.trans rearranged.perm, fun he => (removed.elems he).trans (rearranged.elems he)⟩

/-- Only the element that was moved may be out of order. -/
theorem orderedExcept_removed (placed : h.Placed) (ordered : Ordered (Less lt) h.size h.elemAt) (inside : c < h.size)
    : OrderedExcept (Less lt) (h.swapIndices c h.last).popBack.size (h.swapIndices c h.last).popBack.elemAt c := by
  have lastInside : h.last < h.size := Nat.sub_lt ((Nat.zero_le c).trans_lt inside) Nat.one_pos
  have sameSize : (h.swapIndices c h.last).size = h.size := size_swap
  have isSize : (h.swapIndices c h.last).popBack.size = h.size - 1 := size_popBack.trans (congrArg (· - 1) sameSize)
  have isLess : (h.swapIndices c h.last).popBack.size ≤ h.size := by omega
  refine (ordered.mono isLess).replaced fun i insideI notHole => ?_
  have notLast : i ≠ h.last := by
    rw [last]
    omega
  rw [elemAt, slot_popBack insideI]
  refine (congrFun (elemAt_swapIndices placed inside lastInside) i).trans ?_
  exact congrArg h.elemAt (Equiv.swap_apply_of_ne_of_ne notHole notLast)

/-- An operation ends, and removes one element. -/
def Removes (lt : T → T → Bool) (h : BinaryHeap T) (he : Pointer) (result : Option (BinaryHeap T)) : Prop :=
  ∃ h', result = some h' ∧ Removed h h' he ∧ Ordered (Less lt) h'.size h'.elemAt

omit [IsStrictWeakOrder T (Less lt)] in
theorem Removed.removes {he : Pointer} {result : Option (BinaryHeap T)} (removed : Removed h h' he)
    (restores : Restores lt h' result)
    : Removes lt h he result := by
  obtain ⟨h'', isResult, rearranged, ordered⟩ := restores
  exact ⟨h'', isResult, removed.rearranged rearranged, ordered⟩

theorem pop_removes (placed : h.Placed) (ordered : Ordered (Less lt) h.size h.elemAt) (isNonEmpty : 0 < h.size)
    : Removes lt h (h.slot 0) (pop lt h) := by
  have removed := placed.removed_swap isNonEmpty
  have except := orderedExcept_removed placed ordered isNonEmpty
  have isAbove := except.above fun positive => absurd positive (Nat.lt_irrefl 0)
  rw [pop]
  split
  · next notEmpty =>
      have inside := Nat.pos_of_ne_zero notEmpty
      exact removed.removes (downHeap_restores removed.placed inside isAbove (Nat.lt_succ_of_le (Nat.sub_le _ _)))
  · next isEmpty =>
      refine removed.removes (removed.placed.restores fun i _ inside => ?_)
      exact absurd inside (by omega)

/-- Erasing moves the last element to the hole and sifts it in the direction that is out of order. -/
theorem erase_removes (placed : h.Placed) (ordered : Ordered (Less lt) h.size h.elemAt) (inside : c < h.size)
    : Removes lt h (h.slot c) (erase lt (h.slot c) h) := by
  have isNonEmpty : 0 < h.size := (Nat.zero_le c).trans_lt inside
  rw [erase, placed.pos c inside]
  split
  · next isRoot => exact isRoot ▸ pop_removes placed ordered isNonEmpty
  · next notRoot =>
      split
      · next isLast =>
          have removed := placed.removed_last isNonEmpty
          refine isLast ▸ removed.removes (removed.placed.restores ?_)
          have isLess : h.popBack.size ≤ h.size := size_popBack.trans_le (Nat.sub_le _ _)
          refine (ordered.mono isLess).congr fun i insideI => ?_
          exact congrArg (fun he => (h.memory he).elem) (slot_popBack insideI)
      · next notLast =>
          have removed := placed.removed_swap inside
          refine removed.removes (updateOrder_restores removed.placed ?_ (orderedExcept_removed placed ordered inside))
          have sameSize : (h.swapIndices c h.last).size = h.size := size_swap
          rw [size_popBack, sameSize]
          rw [last] at notLast
          omega

section PushBack

variable {he : Pointer} {toAdded : T}

omit [IsStrictWeakOrder T (Less lt)] in
theorem size_pushBack : (h.pushBack he toAdded).size = h.size + 1 := List.length_append

omit [IsStrictWeakOrder T (Less lt)] in
theorem slot_pushBack_end : (h.pushBack he toAdded).slot h.size = he := by
  have isLess : h.size < (h.pushBack he toAdded).size := size_pushBack ▸ Nat.lt_succ_self _
  rw [slot_eq_getElem isLess]
  exact List.getElem_concat_length rfl _

omit [IsStrictWeakOrder T (Less lt)] in
theorem slot_pushBack (inside : i < h.size) : (h.pushBack he toAdded).slot i = h.slot i := by
  have isLess : i < (h.pushBack he toAdded).size := size_pushBack ▸ Nat.lt_succ_of_lt inside
  rw [slot_eq_getElem isLess, slot_eq_getElem inside]
  exact List.getElem_append_left inside

omit [IsStrictWeakOrder T (Less lt)] in
theorem memory_pushBack (he' : Pointer)
    : (h.pushBack he toAdded).memory he' = if he' = he then ⟨h.size, toAdded⟩ else h.memory he' :=
  Function.update_apply _ _ _ _

omit [IsStrictWeakOrder T (Less lt)] in
theorem memory_slot_pushBack (isNew : he ∉ h.heap) (inside : i < h.size)
    : (h.pushBack he toAdded).memory ((h.pushBack he toAdded).slot i) = h.memory (h.slot i) := by
  rw [slot_pushBack inside, memory_pushBack, if_neg]
  exact fun same => isNew (same ▸ slot_mem inside)

omit [IsStrictWeakOrder T (Less lt)] in
theorem Placed.pushBack (placed : h.Placed) (isNew : he ∉ h.heap) : (h.pushBack he toAdded).Placed := by
  refine ⟨?_, fun i inside => ?_⟩
  · exact (List.perm_append_singleton _ _).nodup_iff.mpr (List.nodup_cons.mpr ⟨isNew, placed.nodup⟩)
  · rw [size_pushBack] at inside
    rcases Nat.lt_or_eq_of_le (Nat.le_of_lt_succ inside) with isBefore | rfl
    · rw [memory_slot_pushBack isNew isBefore]
      exact placed.pos i isBefore
    · rw [slot_pushBack_end, memory_pushBack, if_pos rfl]

omit [IsStrictWeakOrder T (Less lt)] in
theorem orderedBelow_pushBack (toAdded : T) (ordered : Ordered (Less lt) h.size h.elemAt) (isNew : he ∉ h.heap)
    : OrderedBelow (Less lt) (h.pushBack he toAdded).size (h.pushBack he toAdded).elemAt h.size := by
  have elemBefore {k : Nat} (inside : k < h.size) : (h.pushBack he toAdded).elemAt k = h.elemAt k :=
    congrArg HElement.elem (memory_slot_pushBack isNew inside)
  refine ⟨fun i positive inside notEnd => ?_, fun i positive inside isChild _ => ?_⟩
  · rw [size_pushBack] at inside
    have isBefore : i < h.size := by omega
    rw [elemBefore isBefore, elemBefore ((parent_lt positive).trans isBefore)]
    exact ordered i positive isBefore
  · rw [size_pushBack] at inside
    have isAfter := parent_lt positive
    omega

theorem push_restores (placed : h.Placed) (ordered : Ordered (Less lt) h.size h.elemAt) (isNew : he ∉ h.heap)
    : Restores lt (h.pushBack he toAdded) (push lt he toAdded h) := by
  have inside : h.size < (h.pushBack he toAdded).size := size_pushBack ▸ Nat.lt_succ_self _
  have restores := upHeap_restores (placed.pushBack isNew) inside (orderedBelow_pushBack toAdded ordered isNew)
    (Nat.lt_succ_self _)
  rwa [slot_pushBack_end] at restores

end PushBack

section SetElem

variable {he : Pointer} {val : T}

omit [IsStrictWeakOrder T (Less lt)] in
theorem memory_setElem (he' : Pointer)
    : (h.setElem he val).memory he' = if he' = he then { h.memory he with elem := val } else h.memory he' :=
  Function.update_apply _ _ _ _

omit [IsStrictWeakOrder T (Less lt)] in
theorem elem_setElem (he' : Pointer)
    : ((h.setElem he val).memory he').elem = if he' = he then val else (h.memory he').elem := by
  rw [memory_setElem]
  split <;> rfl

omit [IsStrictWeakOrder T (Less lt)] in
theorem pos_setElem (he' : Pointer) : ((h.setElem he val).memory he').pos = (h.memory he').pos := by
  rw [memory_setElem]
  split
  · next same => rw [same]
  · rfl

omit [IsStrictWeakOrder T (Less lt)] in
theorem Placed.setElem (placed : h.Placed) : (h.setElem he val).Placed :=
  ⟨placed.nodup, fun i inside => (pos_setElem _).trans (placed.pos i inside)⟩

end SetElem

theorem update_restores (placed : h.Placed) (ordered : Ordered (Less lt) h.size h.elemAt) (inside : c < h.size)
    (val : T)
    : Restores lt (h.setElem (h.slot c) val) (update lt (h.slot c) val h) := by
  have isPlaced : (h.setElem (h.slot c) val).Placed := placed.setElem
  refine updateOrder_restores isPlaced inside (ordered.replaced fun i insideI notHole => ?_)
  have differs : h.slot i ≠ h.slot c := mt (placed.slot_inj insideI inside).mp notHole
  exact (elem_setElem _).trans (if_neg differs)

end BinaryHeap

end Ava6.Util
