import Ava6.Util.BinHeap

/-! Runs of operations on a binary heap. A table of the elements that were added and not removed, by handle and with their
latest values, says what the heap is for: in every run the heap holds them, in order and where the handles say.
-/

namespace Ava6.Util.BinaryHeap

open Library HeapOrder

variable {T : Type*}

abbrev Contents (T : Type*) := Pointer → Option T

inductive Op (T : Type*)
  | push (he : Pointer) (toAdded : T)
  | pop
  | erase (he : Pointer)
  | update (he : Pointer) (val : T)

namespace Op

/-- A new element has an address of its own, and a handle is of an element in the heap. -/
def Allowed (contents : Contents T) : Op T → Prop
  | .push he _ => contents he = none
  | .pop => ∃ he, contents he ≠ none
  | .erase he | .update he _ => contents he ≠ none

def apply (lt : T → T → Bool) : Op T → BinaryHeap T → Option (BinaryHeap T)
  | .push he toAdded => BinaryHeap.push lt he toAdded
  | .pop => BinaryHeap.pop lt
  | .erase he => BinaryHeap.erase lt he
  | .update he val => BinaryHeap.update lt he val

/-- The elements afterwards; `pop` removes the one at the top. -/
def effect (h : BinaryHeap T) (contents : Contents T) : Op T → Contents T
  | .push he toAdded => Function.update contents he (some toAdded)
  | .pop => Function.update contents (h.slot 0) none
  | .erase he => Function.update contents he none
  | .update he val => Function.update contents he (some val)

end Op

/-- A heap that is reached from an empty one, with its elements. -/
inductive Reached (lt : T → T → Bool) : BinaryHeap T → Contents T → Prop
  | initial (memory : Pointer → HElement T)
    : Reached lt ⟨[], memory⟩ fun _ => none
  | step {h h' : BinaryHeap T} {contents : Contents T} {op : Op T} (before : Reached lt h contents)
    (allowed : op.Allowed contents) (isResult : op.apply lt h = some h')
    : Reached lt h' (op.effect h contents)

/-- The heap holds exactly these elements. -/
def Holds (h : BinaryHeap T) (contents : Contents T) : Prop :=
  ∀ he, contents he = if he ∈ h.heap then some (h.memory he).elem else none

variable {h h' : BinaryHeap T} {contents : Contents T} {he : Pointer}

theorem Holds.mem_iff (holds : Holds h contents) : he ∈ h.heap ↔ contents he ≠ none := by
  rw [holds he]
  split
  · next member => exact iff_of_true member (Option.some_ne_none _)
  · next outside => exact iff_of_false outside (fun differs => differs rfl)

theorem Holds.rearranged (holds : Holds h contents) (rearranged : Rearranged h h') : Holds h' contents := by
  intro he
  rw [holds he, rearranged.elems, if_congr rearranged.perm.mem_iff rfl rfl]

theorem Holds.removed (holds : Holds h contents) (placed : h.Placed) (removed : Removed h h' he)
    : Holds h' (Function.update contents he none) := by
  have nodup := removed.perm.nodup_iff.mpr placed.nodup
  intro he'
  by_cases same : he' = he
  · rw [same, Function.update_self, if_neg (List.nodup_cons.mp nodup).1]
  · have member : he' ∈ h'.heap ↔ he' ∈ h.heap := by
      rw [← removed.perm.mem_iff, List.mem_cons, or_iff_right same]
    rw [Function.update_of_ne same, holds he', removed.elems, if_congr member rfl rfl]

theorem Holds.pushBack (holds : Holds h contents) (toAdded : T)
    : Holds (h.pushBack he toAdded) (Function.update contents he (some toAdded)) := by
  intro he'
  have member : he' ∈ (h.pushBack he toAdded).heap ↔ he' ∈ h.heap ∨ he' = he := by
    rw [BinaryHeap.pushBack, List.mem_append, List.mem_singleton]
  rw [Function.update_apply, memory_pushBack]
  by_cases same : he' = he
  · rw [if_pos same, if_pos same, if_pos (member.mpr (Or.inr same))]
  · rw [if_neg same, if_neg same, holds he', if_congr (member.trans (or_iff_left same)) rfl rfl]

theorem Holds.setElem (holds : Holds h contents) (member : he ∈ h.heap) (val : T)
    : Holds (h.setElem he val) (Function.update contents he (some val)) := by
  intro he'
  rw [Function.update_apply, elem_setElem]
  by_cases same : he' = he
  · rw [if_pos same, if_pos same]
    exact (if_pos (show he' ∈ h.heap from same ▸ member)).symm
  · rw [if_neg same, if_neg same]
    exact holds he'

/-- What every operation keeps. -/
structure Valid (lt : T → T → Bool) (h : BinaryHeap T) (contents : Contents T) : Prop where
  placed : h.Placed
  ordered : Ordered (Less lt) h.size h.elemAt
  holds : Holds h contents

variable {lt : T → T → Bool}

theorem Valid.restored (holds : Holds h contents) {result : Option (BinaryHeap T)} (restores : Restores lt h result)
    : ∃ h', result = some h' ∧ Valid lt h' contents := by
  obtain ⟨h', isResult, rearranged, ordered⟩ := restores
  exact ⟨h', isResult, rearranged.placed, ordered, holds.rearranged rearranged⟩

theorem Valid.removed (valid : Valid lt h contents) {result : Option (BinaryHeap T)} (removes : Removes lt h he result)
    : ∃ h', result = some h' ∧ Valid lt h' (Function.update contents he none) := by
  obtain ⟨h', isResult, removed, ordered⟩ := removes
  exact ⟨h', isResult, removed.placed, ordered, valid.holds.removed valid.placed removed⟩

variable [IsStrictWeakOrder T (Less lt)]

/-- Each operation succeeds and keeps the heap valid, with its effect on the contents. -/
theorem Valid.step (valid : Valid lt h contents) {op : Op T} (allowed : op.Allowed contents)
    : ∃ h', op.apply lt h = some h' ∧ Valid lt h' (op.effect h contents) := by
  cases op with
  | push he toAdded =>
      have isNew : he ∉ h.heap := fun member => valid.holds.mem_iff.mp member allowed
      exact Valid.restored (valid.holds.pushBack toAdded) (push_restores valid.placed valid.ordered isNew)
  | pop =>
      obtain ⟨he, present⟩ := allowed
      have isNonEmpty := List.length_pos_of_mem (valid.holds.mem_iff.mpr present)
      exact valid.removed (pop_removes valid.placed valid.ordered isNonEmpty)
  | erase he =>
      obtain ⟨c, inside, rfl⟩ := exists_slot (valid.holds.mem_iff.mpr allowed)
      exact valid.removed (erase_removes valid.placed valid.ordered inside)
  | update he val =>
      have member := valid.holds.mem_iff.mpr allowed
      obtain ⟨c, inside, rfl⟩ := exists_slot member
      exact Valid.restored (valid.holds.setElem member val) (update_restores valid.placed valid.ordered inside val)

theorem Reached.valid (reached : Reached lt h contents) : Valid lt h contents := by
  induction reached with
  | initial memory =>
      refine ⟨⟨List.nodup_nil, fun i inside => absurd inside (Nat.not_lt_zero i)⟩, fun i _ inside => ?_, fun he => ?_⟩
      · exact absurd inside (Nat.not_lt_zero i)
      · exact (if_neg List.not_mem_nil).symm
  | step before allowed isResult ih =>
      obtain ⟨h', isResult', valid⟩ := ih.step allowed
      rw [isResult] at isResult'
      exact Option.some.inj isResult' ▸ valid

/-- The first element is one that no other precedes. -/
theorem Valid.top_cases (valid : Valid lt h contents)
    : (h.top = none ∧ ∀ he, contents he = none)
      ∨ ∃ v, h.top = some v ∧ contents (h.slot 0) = some v ∧ ∀ he w, contents he = some w → lt v w = false := by
  rcases Nat.eq_zero_or_pos h.size with isEmpty | isNonEmpty
  · have isNil : h.heap = [] := List.length_eq_zero_iff.mp isEmpty
    refine Or.inl ⟨?_, fun he => ?_⟩
    · rw [top, isNil]
      rfl
    · rw [valid.holds he, isNil, if_neg List.not_mem_nil]
  · refine Or.inr ⟨h.elemAt 0, ?_, ?_, fun he w present => ?_⟩
    · rw [top, List.head?_eq_getElem?, List.getElem?_eq_getElem isNonEmpty, Option.map_some, elemAt,
        slot_eq_getElem isNonEmpty]
    · rw [valid.holds, if_pos (slot_mem isNonEmpty)]
      rfl
    · have isPresent : contents he ≠ none := present ▸ Option.some_ne_none w
      obtain ⟨i, inside, rfl⟩ := exists_slot (valid.holds.mem_iff.mpr isPresent)
      rw [valid.holds, if_pos (slot_mem inside)] at present
      obtain rfl := Option.some.inj present
      exact Bool.eq_false_iff.mpr (valid.ordered.root_max inside)

/-- In every run the heap holds the elements that were added and not removed, each where its handle says, no parent is
less than a child, the top is a greatest element, and the next operation ends.
-/
theorem binaryHeap_correct (reached : Reached lt h contents)
    : Holds h contents ∧ h.heap.Nodup ∧ (∀ he ∈ h.heap, h.heap[(h.memory he).pos]? = some he)
      ∧ (∀ i, 0 < i → i < h.size → lt (h.elemAt (parent i)) (h.elemAt i) = false)
      ∧ ((h.top = none ∧ ∀ he, contents he = none)
        ∨ ∃ v, h.top = some v ∧ contents (h.slot 0) = some v ∧ ∀ he w, contents he = some w → lt v w = false)
      ∧ ∀ op : Op T, op.Allowed contents → ∃ h', op.apply lt h = some h' := by
  have valid := reached.valid
  refine ⟨valid.holds, valid.placed.nodup, fun he member => ?_, fun i positive inside => ?_, valid.top_cases, ?_⟩
  · obtain ⟨i, inside, rfl⟩ := exists_slot member
    rw [valid.placed.pos i inside, List.getElem?_eq_getElem inside, slot_eq_getElem inside]
  · exact Bool.eq_false_iff.mpr (valid.ordered i positive inside)
  · intro op allowed
    obtain ⟨h', isResult, -⟩ := valid.step allowed
    exact ⟨h', isResult⟩

/-- `std::less` on numbers. -/
def less (a b : Nat) : Bool := decide (a < b)

instance : IsStrictWeakOrder Nat (Less less) where
  irrefl a isLess := Nat.lt_irrefl a (of_decide_eq_true isLess)
  trans a b c first second := decide_eq_true (Nat.lt_trans (of_decide_eq_true first) (of_decide_eq_true second))
  incomp_trans a b c first second := by
    simp only [Less, less, decide_eq_true_eq] at *
    omega

theorem binaryHeap_correct_after_update
    : ∃ (h : BinaryHeap Nat) (contents : Contents Nat),
        h.heap = [0, 1] ∧ h.top = some 9 ∧ contents 1 = some 7 ∧ Holds h contents ∧ h.heap.Nodup := by
  have atStart : Reached less _ _ := .initial fun _ => ⟨0, 0⟩
  have afterPush : Reached less _ (Op.effect _ _ (.push 0 5)) := .step atStart rfl rfl
  have afterSecond : Reached less _ (Op.effect _ _ (.push 1 7)) := .step afterPush rfl rfl
  have afterUpdate : Reached less _ (Op.effect _ _ (.update 0 9)) := .step afterSecond (Option.some_ne_none 5) rfl
  have correct := binaryHeap_correct afterUpdate
  exact ⟨_, _, rfl, rfl, rfl, correct.1, correct.2.1⟩

end Ava6.Util.BinaryHeap
