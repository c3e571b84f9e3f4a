import Ava6.Library.Numeral
import Ava6.Arrays.RewriterConstants
import Ava6.Strings.Enumeration

/-! The enumerator of constant arrays: a counter with a digit for each index used so far, which gets one more when
it overflows. Each state is turned into a normalised constant, and each function comes once.
-/

namespace Ava6.Arrays

open Library ArrayNode

variable {I V : Type}

/-- Enumerators of other sorts are the values they have still to list, the current one first. The constituents
are listed from the back of the vector on.
-/
structure ArrayEnumerator (I V : Type) where
  index : List I
  indexVec : List I
  constituentVec : List (List V)
  finished : Bool

namespace ArrayEnumerator

/-- Over sorts with these values. -/
def ofSorts (indices : List I) (elements : List V) : ArrayEnumerator I V :=
  ⟨indices, indices.take 1, [elements], false⟩

/-- The array that maps all indices to the first element. -/
def arrayConst (elements : List V) : Option (ArrayNode I V) := elements.head?.map .storeAll

/-- Stores the current constituents, and normalises the constant after each store. -/
def stores [LinearOrder I] [LinearOrder V] (indices : List I) (elements : List V) (entries : List (I × List V))
    : Option (ArrayNode I V) :=
  entries.foldr (fun entry n => do
    let n ← n
    let value ← entry.2.head?
    normalizeConstant (some indices.length) indices (.store n entry.1 value)) (arrayConst elements)

/-- `operator*`, nothing if there are no more values. -/
def current [LinearOrder I] [LinearOrder V] (indices : List I) (elements : List V) (e : ArrayEnumerator I V)
    : Option (ArrayNode I V) :=
  if e.finished then none else stores indices elements (e.indexVec.zip e.constituentVec)

/-- Increments the last constituent, and drops those that are finished. -/
def advance : List (List V) → List (List V)
  | [] => []
  | back :: below => if back.tail.isEmpty then advance below else back.tail :: below

/-- Adds new constituents until there is one for each index. -/
def refill (elements : List V) (size : Nat) (constituentVec : List (List V)) : List (List V) :=
  List.replicate (size - constituentVec.length) elements ++ constituentVec

/-- `operator++`. -/
def increment (elements : List V) (e : ArrayEnumerator I V) : ArrayEnumerator I V :=
  if e.finished then e
  else
    let constituentVec := advance e.constituentVec
    if constituentVec.isEmpty then
      match e.index.tail with
      | [] => ⟨[], e.indexVec, constituentVec, true⟩
      | i :: later =>
          let indexVec := e.indexVec ++ [i]
          if elements.tail.isEmpty then ⟨i :: later, indexVec, [elements.tail], true⟩
          else ⟨i :: later, indexVec, refill elements indexVec.length [elements.tail], false⟩
    else { e with constituentVec := refill elements e.indexVec.length constituentVec }

/-- The current array after a number of steps. -/
def output [LinearOrder I] [LinearOrder V] (indices : List I) (elements : List V) (step : Nat)
    : Option (ArrayNode I V) :=
  ((increment elements)^[step] (ofSorts indices elements)).current indices elements

section Counter

variable {elements : List V} {indices : List I} {length v : Nat}

theorem length_advance_le (constituentVec : List (List V))
    : (advance constituentVec).length ≤ constituentVec.length := by
  induction constituentVec with
  | nil => exact Nat.le_refl _
  | cons back below ih =>
      rw [advance]
      split
      · exact Nat.le_succ_of_le ih
      · exact Nat.le_refl _

/-- The constituents at the digits of a number. -/
def digits (elements : List V) (length v : Nat) : List (List V) :=
  (numeral elements.length length v).map (elements.drop ·)

theorem digits_succ (elements : List V) (length v : Nat)
    : digits elements (length + 1) v
      = elements.drop (v % elements.length) :: digits elements length (v / elements.length) :=
  rfl

theorem length_digits (elements : List V) (length v : Nat) : (digits elements length v).length = length := by
  rw [digits, List.length_map, length_numeral]

theorem isEmpty_tail_drop (d : Nat) : (elements.drop d).tail.isEmpty = decide (elements.length ≤ d + 1) := by
  rw [List.tail_drop, Bool.eq_iff_iff, List.isEmpty_iff, List.drop_eq_nil_iff, decide_eq_true_iff]

/-- Incrementing and refilling gives the digits of the next number, until the counter overflows. -/
theorem advance_digits (nonempty : 0 < elements.length) (bound : v < elements.length ^ length)
    : (v + 1 < elements.length ^ length
        → advance (digits elements length v) ≠ []
          ∧ refill elements length (advance (digits elements length v)) = digits elements length (v + 1))
      ∧ (¬v + 1 < elements.length ^ length → advance (digits elements length v) = []) := by
  induction length generalizing v with
  | zero =>
      rw [Nat.pow_zero] at bound ⊢
      exact ⟨fun more => by omega, fun _ => rfl⟩
  | succ length ih =>
      rw [digits_succ, advance, isEmpty_tail_drop]
      rcases mod_succ_cases nonempty v with noCarry | carry
      · have next : digits elements (length + 1) (v + 1)
            = (elements.drop (v % elements.length)).tail :: digits elements length (v / elements.length) := by
          rw [digits, numeral_succ noCarry, List.tail_drop]
          rfl
        rw [if_neg (by rw [decide_eq_true_iff]; omega)]
        refine ⟨fun _ => ⟨List.cons_ne_nil _ _, ?_⟩, fun last => ?_⟩
        · rw [← next, refill, length_digits, Nat.sub_self]
          rfl
        · have quotient := div_lt_pow bound
          have parts := Nat.div_add_mod v elements.length
          have step : elements.length * (v / elements.length + 1) ≤ elements.length ^ (length + 1) := by
            rw [Nat.pow_succ']
            exact Nat.mul_le_mul_left _ quotient
          rw [Nat.mul_succ] at step
          omega
      · obtain ⟨isNumeral, isProduct⟩ := @numeral_carry elements.length length v carry
        have overflow : v + 1 < elements.length ^ (length + 1)
            ↔ v / elements.length + 1 < elements.length ^ length := by
          rw [isProduct, Nat.pow_succ', Nat.mul_lt_mul_left nonempty]
        obtain ⟨next, last⟩ := ih (div_lt_pow bound)
        rw [if_pos (by rw [decide_eq_true_iff]; omega), overflow]
        refine ⟨fun more => ⟨(next more).1, ?_⟩, last⟩
        have shorter := length_advance_le (digits elements length (v / elements.length))
        rw [length_digits] at shorter
        have refilled : refill elements (length + 1) (advance (digits elements length (v / elements.length)))
            = elements :: refill elements length (advance (digits elements length (v / elements.length))) := by
          rw [refill, refill, Nat.succ_sub shorter, List.replicate_succ, List.cons_append]
        rw [refilled, (next more).2, digits, digits, isNumeral, List.map_cons, List.drop_zero]

/-- The state at a number with some digits. -/
def stateAt (indices : List I) (elements : List V) (length v : Nat) : ArrayEnumerator I V :=
  ⟨indices.drop length, indices.take (length + 1), digits elements (length + 1) v, false⟩

/-- The state after a number of steps. -/
def Reached (indices : List I) (elements : List V) (step : Nat) (e : ArrayEnumerator I V) : Prop :=
  ∃ length < indices.length, step < elements.length ^ (length + 1) ∧ e = stateAt indices elements length step

theorem reached_zero (nonemptyIndices : 0 < indices.length) (nonempty : 0 < elements.length)
    : Reached indices elements 0 (ofSorts indices elements) := by
  refine ⟨0, nonemptyIndices, by rwa [Nat.zero_add, Nat.pow_one], ?_⟩
  rw [stateAt, digits, numeral, numeral, Nat.zero_mod, List.drop_zero]
  rfl

/-- A step reaches the state at the next number, or finishes after the last one. -/
theorem reached_increment (nonempty : 0 < elements.length) {e : ArrayEnumerator I V}
    (reached : Reached indices elements v e)
    : (v + 1 < elements.length ^ indices.length → Reached indices elements (v + 1) (e.increment elements))
      ∧ (¬v + 1 < elements.length ^ indices.length → (e.increment elements).finished = true) := by
  obtain ⟨length, inside, bound, rfl⟩ := reached
  obtain ⟨next, last⟩ := advance_digits nonempty bound
  have isSize : (indices.take (length + 1)).length = length + 1 := List.length_take_of_le inside
  have atMost : elements.length ^ (length + 1) ≤ elements.length ^ indices.length :=
    Nat.pow_le_pow_right nonempty inside
  unfold increment stateAt
  dsimp only
  by_cases more : v + 1 < elements.length ^ (length + 1)
  · obtain ⟨remain, refilled⟩ := next more
    rw [if_neg (by simp), if_neg (by rwa [List.isEmpty_iff]), isSize, refilled]
    exact ⟨fun _ => ⟨length, inside, more, rfl⟩, fun ends => by omega⟩
  · have isPower : v + 1 = elements.length ^ (length + 1) := by omega
    rw [if_neg (by simp), last more, if_pos List.isEmpty_nil, List.tail_drop]
    by_cases isLast : length + 1 < indices.length
    · rw [List.drop_eq_getElem_cons isLast]
      dsimp only
      have extended : indices.take (length + 1) ++ [indices[length + 1]] = indices.take (length + 1 + 1) :=
        List.take_append_getElem isLast
      have isSingle : elements.tail.isEmpty = decide (elements.length ≤ 1) := isEmpty_tail_drop 0
      rw [extended, isSingle]
      by_cases single : elements.length = 1
      · rw [if_pos (by rw [decide_eq_true_iff]; omega)]
        rw [single, Nat.one_pow] at isPower ⊢
        exact ⟨fun more => by omega, fun _ => rfl⟩
      · rw [if_neg (by rw [decide_eq_true_iff]; omega)]
        have larger : v + 1 < elements.length ^ (length + 1 + 1) := by
          rw [isPower]
          exact Nat.pow_lt_pow_right (by omega) (Nat.lt_succ_self _)
        refine ⟨fun _ => ⟨length + 1, isLast, larger, ?_⟩, fun ends => ?_⟩
        · rw [stateAt, List.drop_eq_getElem_cons isLast, digits, isPower, numeral_pow (by omega), refill,
            List.length_take_of_le isLast]
          simp
        · have fewer : elements.length ^ (length + 1 + 1) ≤ elements.length ^ indices.length :=
            Nat.pow_le_pow_right nonempty isLast
          omega
    · have isAll : indices.length = length + 1 := by omega
      rw [List.drop_eq_nil_of_le (by omega), isAll]
      exact ⟨fun more => by omega, fun _ => rfl⟩

theorem reached_run (nonemptyIndices : 0 < indices.length) (nonempty : 0 < elements.length) {step : Nat}
    (before : step < elements.length ^ indices.length)
    : Reached indices elements step ((increment elements)^[step] (ofSorts indices elements)) := by
  induction step with
  | zero => exact reached_zero nonemptyIndices nonempty
  | succ step ih =>
      rw [Function.iterate_succ_apply']
      exact (reached_increment nonempty (ih (by omega))).1 before

end Counter

section Listing

variable [LinearOrder I] [LinearOrder V] {elements : List V} {indices : List I} {first : V}

/-- What is kept by normalising a store to a constant. -/
def Kept (indices : List I) (invariant : ArrayNode I V → Prop) : Prop :=
  ∀ n, invariant n → ∀ index value, ∃ r,
    normalizeConstant (some indices.length) indices (.store n index value) = some r
      ∧ invariant r ∧ r.denote = Function.update n.denote index value

theorem kept_sorted (distinct : indices.Nodup) (complete : ∀ i, i ∈ indices)
    : Kept (V := V) indices ArrayNode.Sorted := by
  intro n sorted index value
  obtain ⟨r, isNormalized, isSorted, denotes, -⟩ := normalizeConstant_denotes
    (fun card isCard => (Option.some.inj isCard).symm) (fun _ => distinct) sorted index value
  exact ⟨r, isNormalized, isSorted, funext fun i => denotes i (Or.inr (complete i))⟩

theorem kept_normal (distinct : indices.Nodup) (complete : ∀ i, i ∈ indices) (nonempty : 0 < indices.length)
    (small : indices.length ≤ 2 ^ 31)
    : Kept (V := V) indices (ArrayNode.Normal (some indices.length) indices) :=
  fun _ normal index value =>
    normalizeConstant_spec (.finite indices distinct complete nonempty small) normal index value

/-- The stores give an array with the stored values at their indices and the first element elsewhere. -/
theorem stores_spec {invariant : ArrayNode I V → Prop} (kept : Kept indices invariant)
    (initially : invariant (.storeAll first)) (isFirst : elements.head? = some first) (entries : List (I × List V))
    (current : ∀ entry ∈ entries, ∃ value, entry.2.head? = some value) (distinct : (entries.map Prod.fst).Nodup)
    : ∃ r, stores indices elements entries = some r ∧ invariant r
      ∧ (∀ i ∉ entries.map Prod.fst, r.denote i = first)
      ∧ ∀ entry ∈ entries, entry.2.head? = some (r.denote entry.1) := by
  induction entries with
  | nil =>
      refine ⟨.storeAll first, ?_, initially, fun _ _ => rfl, nofun⟩
      rw [stores, List.foldr_nil, arrayConst, isFirst, Option.map_some]
  | cons entry entries ih =>
      obtain ⟨⟨value, isValue⟩, currentRest⟩ := List.forall_mem_cons.mp current
      obtain ⟨isNew, distinctRest⟩ := List.nodup_cons.mp distinct
      obtain ⟨n, isStored, invariantN, elsewhere, stored⟩ := ih currentRest distinctRest
      obtain ⟨r, isNormalized, invariantR, denotes⟩ := kept n invariantN entry.1 value
      refine ⟨r, ?_, invariantR, fun i absent => ?_, fun other member => ?_⟩
      · rw [stores] at isStored ⊢
        rw [List.foldr_cons, isStored, isValue]
        exact isNormalized
      · obtain ⟨differs, absentRest⟩ := not_or.mp (mt List.mem_cons.mpr absent)
        rw [denotes, Function.update_of_ne differs, elsewhere i absentRest]
      · rcases List.mem_cons.mp member with rfl | isLater
        · rw [denotes, Function.update_self, isValue]
        · have differs : other.1 ≠ entry.1 := fun same => isNew (same ▸ List.mem_map_of_mem isLater)
          rw [denotes, Function.update_of_ne differs, stored other isLater]

/-- The function at a step: the digit at the position of an index is the position of its value. -/
def functionAt (indices : List I) (elements : List V) (first : V) (step : Nat) (i : I) : V :=
  elements[step / elements.length ^ indices.idxOf i % elements.length]?.getD first

/-- The current array of a step is the function whose values are at the positions that the digits of the
step are.
-/
theorem current_stateAt {invariant : ArrayNode I V → Prop} (kept : Kept indices invariant)
    (initially : invariant (.storeAll first)) (distinct : indices.Nodup) (complete : ∀ i, i ∈ indices)
    (isFirst : elements.head? = some first) {length step : Nat} (inside : length < indices.length)
    (bound : step < elements.length ^ (length + 1))
    : ∃ r, (stateAt indices elements length step).current indices elements = some r ∧ invariant r
      ∧ r.denote = functionAt indices elements first step := by
  have nonempty : 0 < elements.length := List.length_pos_of_ne_nil (by rintro rfl; cases isFirst)
  have sameLength : (indices.take (length + 1)).length = (digits elements (length + 1) step).length := by
    rw [length_digits, List.length_take_of_le inside]
  have keys : ((indices.take (length + 1)).zip (digits elements (length + 1) step)).map Prod.fst
      = indices.take (length + 1) :=
    List.map_fst_zip (Nat.le_of_eq sameLength)
  have head (d : Nat) (small : d < elements.length) : (elements.drop d).head? = some elements[d] := by
    rw [List.head?_drop, List.getElem?_eq_getElem small]
  have member (entry : I × List V)
      (isEntry : entry ∈ (indices.take (length + 1)).zip (digits elements (length + 1) step))
      : ∃ d < elements.length, entry.2 = elements.drop d := by
    obtain ⟨d, isDigit, isDrop⟩ := List.mem_map.mp (List.of_mem_zip isEntry).2
    exact ⟨d, digit_lt nonempty isDigit, isDrop.symm⟩
  obtain ⟨r, isStored, invariantR, elsewhere, stored⟩ := stores_spec kept initially isFirst
    ((indices.take (length + 1)).zip (digits elements (length + 1) step))
    (fun entry isEntry => by
      obtain ⟨d, small, isDrop⟩ := member entry isEntry
      exact ⟨elements[d], isDrop ▸ head d small⟩)
    (by rw [keys]; exact distinct.sublist (List.take_sublist _ _))
  refine ⟨r, isStored, invariantR, funext fun i => ?_⟩
  obtain ⟨inList, isIndex⟩ := List.getElem?_eq_some_iff.mp (List.getElem?_idxOf (complete i))
  rw [functionAt]
  by_cases counted : indices.idxOf i < length + 1
  · have small := Nat.mod_lt (step / elements.length ^ indices.idxOf i) nonempty
    have isEntry : (i, elements.drop (step / elements.length ^ indices.idxOf i % elements.length))
        ∈ (indices.take (length + 1)).zip (digits elements (length + 1) step) := by
      refine List.mem_of_getElem? (i := indices.idxOf i) ?_
      rw [List.getElem?_zip_eq_some]
      refine ⟨?_, ?_⟩
      · rw [List.getElem?_take_of_lt counted, List.getElem?_idxOf (complete i)]
      · rw [digits, List.getElem?_map, getElem?_numeral counted, Option.map_some]
    have isValue := stored _ isEntry
    rw [head _ small, Option.some.injEq] at isValue
    rw [List.getElem?_eq_getElem small, Option.getD_some, isValue]
  · -- The digits that are not counted yet are zero.
    have zero : step / elements.length ^ indices.idxOf i = 0 := by
      refine Nat.div_eq_of_lt (Nat.lt_of_lt_of_le bound ?_)
      exact Nat.pow_le_pow_right nonempty (by omega)
    rw [zero, Nat.zero_mod, ← List.head?_eq_getElem?, isFirst, Option.getD_some]
    refine elsewhere i ?_
    rw [keys]
    intro isTaken
    obtain ⟨j, bound, isI⟩ := List.getElem_of_mem isTaken
    rw [List.getElem_take] at isI
    have position := distinct.idxOf_getElem j (by rw [List.length_take] at bound; omega)
    rw [isI] at position
    rw [List.length_take] at bound
    omega

/-- The functions at the steps are all functions. -/
theorem functionAt_bijOn (first : V) (distinct : indices.Nodup) (complete : ∀ i, i ∈ indices)
    (distinctElements : elements.Nodup) (completeElements : ∀ x, x ∈ elements) (nonempty : 0 < elements.length)
    : Set.BijOn (functionAt indices elements first) (Set.Iio (elements.length ^ indices.length)) Set.univ := by
  refine ⟨fun _ _ => trivial, fun step bound step' bound' same => ?_, fun f _ => ?_⟩
  · refine numeral_injective bound bound' (List.ext_getElem? fun j => ?_)
    by_cases inside : j < indices.length
    · rw [getElem?_numeral inside, getElem?_numeral inside]
      have sameValue := congrFun same indices[j]
      rw [functionAt, functionAt, distinct.idxOf_getElem j inside,
        List.getElem?_eq_getElem (Nat.mod_lt _ nonempty),
        List.getElem?_eq_getElem (Nat.mod_lt _ nonempty)] at sameValue
      rw [distinctElements.getElem_inj_iff.mp sameValue]
    · rw [List.getElem?_eq_none (by rw [length_numeral]; omega),
        List.getElem?_eq_none (by rw [length_numeral]; omega)]
  · obtain ⟨step, bound, isNumeral⟩ := @numeral_surjective elements.length
      (indices.map fun i => elements.idxOf (f i))
      (fun d isDigit => by
        obtain ⟨i, -, rfl⟩ := List.mem_map.mp isDigit
        exact List.idxOf_lt_length_of_mem (completeElements (f i)))
    rw [List.length_map] at bound isNumeral
    refine ⟨step, bound, funext fun i => ?_⟩
    have digit := @getElem?_numeral elements.length _ _ (List.idxOf_lt_length_of_mem (complete i)) step
    rw [isNumeral, List.getElem?_map, List.getElem?_idxOf (complete i), Option.map_some, Option.some.injEq] at digit
    rw [functionAt, ← digit, List.getElem?_idxOf (completeElements (f i)), Option.getD_some]

/-- Each function from the indices to the elements comes once, as an array that denotes it, and then nothing. The
arrays are constants if there are at most `2 ^ 31` indices.
-/
theorem arrays_listed (distinct : indices.Nodup) (complete : ∀ i, i ∈ indices)
    (nonemptyIndices : 0 < indices.length) (distinctElements : elements.Nodup)
    (completeElements : ∀ x, x ∈ elements) (nonempty : 0 < elements.length)
    : ListsThenEnds (fun step => (output indices elements step).map ArrayNode.denote) Set.univ
        (elements.length ^ indices.length)
      ∧ (indices.length ≤ 2 ^ 31
        → ∀ step < elements.length ^ indices.length, ∃ r, output indices elements step = some r
          ∧ isConst (some indices.length) r = true) := by
  obtain ⟨first, isFirst⟩ : ∃ first, elements.head? = some first := by
    rw [List.head?_eq_getElem?]
    exact ⟨elements[0], List.getElem?_eq_getElem nonempty⟩
  have many : 0 < elements.length ^ indices.length := Nat.pow_pos nonempty
  refine ⟨listsThenEnds_of_bijOn (fun step before => ?_) ?_
    (functionAt_bijOn first distinct complete distinctElements completeElements nonempty),
    fun small step before => ?_⟩
  · obtain ⟨length, inside, bound, isState⟩ := reached_run nonemptyIndices nonempty before
    obtain ⟨r, isOutput, -, denotes⟩ := current_stateAt (kept_sorted distinct complete) List.Pairwise.nil distinct
      complete isFirst inside bound
    rw [output, isState, isOutput, Option.map_some, denotes]
  · have isLast : elements.length ^ indices.length = (elements.length ^ indices.length - 1) + 1 := by omega
    have before : elements.length ^ indices.length - 1 < elements.length ^ indices.length := by omega
    have reached := reached_run nonemptyIndices nonempty before
    rw [isLast, output, Function.iterate_succ_apply', current,
      if_pos ((reached_increment nonempty reached).2 (by omega)), Option.map_none]
  · obtain ⟨length, inside, bound, isState⟩ := reached_run nonemptyIndices nonempty before
    have sort : IndexSort I (some indices.length) indices := .finite indices distinct complete nonemptyIndices small
    obtain ⟨r, isOutput, normal, -⟩ := current_stateAt (kept_normal distinct complete nonemptyIndices small)
      ((isConst_iff_normal sort _).mp rfl) distinct complete isFirst inside bound
    refine ⟨r, ?_, (isConst_iff_normal sort r).mpr normal⟩
    rw [output, isState, isOutput]

end Listing

end ArrayEnumerator

open Strings

section Enumerators

variable {card startLength n : Nat} {α : Type} {values : List α} [LinearOrder I] [LinearOrder V]
  {elements : List V} {indices : List I}

/-- Strings, sequences and arrays come once each, and the enumerators finish. The one of sequences does so exactly
if the elements are fewer than `2 ^ 32`.
-/
theorem enumerators_exact (alphabet : 1 ≤ card ∧ card ≤ 196608) (distinctValues : values.Nodup)
    (nonemptyValues : 0 < values.length) (positive : 1 ≤ n) (distinct : indices.Nodup)
    (complete : ∀ i, i ∈ indices) (nonemptyIndices : 0 < indices.length) (distinctElements : elements.Nodup)
    (completeElements : ∀ x, x ∈ elements) (nonempty : 0 < elements.length)
    : (Lists (StringEnumLen.ofLength startLength none card).output (Words card startLength none)
        ∧ ∀ step step' w w', step ≤ step'
          → (StringEnumLen.ofLength startLength none card).output step = some w
          → (StringEnumLen.ofLength startLength none card).output step' = some w' → w.length ≤ w'.length)
      ∧ (∀ last, startLength ≤ last → ∃ steps,
          ListsThenEnds (StringEnumLen.ofLength startLength (some last) card).output
            (Words card startLength (some last)) steps
          ∧ ∀ step step' w w', step ≤ step' → step' < steps
            → (StringEnumLen.ofLength startLength (some last) card).output step = some w
            → (StringEnumLen.ofLength startLength (some last) card).output step' = some w'
            → w.length ≤ w'.length)
      ∧ (ListsThenEnds (SeqEnumLen.ofLengths n n values).output (Sequences values n) (values.length ^ n)
          ↔ values.length < 2 ^ 32)
      ∧ ListsThenEnds (fun step => (ArrayEnumerator.output indices elements step).map ArrayNode.denote) Set.univ
          (elements.length ^ indices.length)
      ∧ (indices.length ≤ 2 ^ 31
          → ∀ step < elements.length ^ indices.length, ∃ r,
            ArrayEnumerator.output indices elements step = some r ∧ isConst (some indices.length) r = true) := by
  obtain ⟨m, rfl⟩ : ∃ m, n = m + 1 := ⟨n - 1, by omega⟩
  exact ⟨strings_listed alphabet.1, fun last => strings_listed_until alphabet.1,
    sequences_listed_iff distinctValues nonemptyValues,
    ArrayEnumerator.arrays_listed distinct complete nonemptyIndices distinctElements completeElements nonempty⟩

end Enumerators

/-- Pairs of two letters are listed in four steps, and so are the arrays from two indices to two elements. -/
theorem pairs_enumerated
    : ListsThenEnds (SeqEnumLen.ofLengths 2 2 ["a", "b"]).output (Sequences ["a", "b"] 2) 4
      ∧ ListsThenEnds
          (fun step => (ArrayEnumerator.output [false, true] [(0 : Fin 2), 1] step).map ArrayNode.denote)
          Set.univ 4 := by
  have exact := @enumerators_exact Bool (Fin 2) 256 0 2 String ["a", "b"] _ _ [0, 1] [false, true] (by decide)
    (by decide) (by decide) (by decide) (by decide) (by decide) (by decide) (by decide) (by decide) (by decide)
  exact ⟨exact.2.2.1.mpr (by decide), exact.2.2.2.1⟩

/-- Over `2 ^ 32` elements there are as many sequences of length one, but the last one does not come. -/
theorem sequences_cut_short
    : (List.range (2 ^ 32)).Nodup ∧ (List.range (2 ^ 32)).length = 2 ^ 32
      ∧ (SeqEnumLen.ofLengths 1 1 (List.range (2 ^ 32))).output (2 ^ 32 - 1) = none
      ∧ ¬ListsThenEnds (SeqEnumLen.ofLengths 1 1 (List.range (2 ^ 32))).output (Sequences (List.range (2 ^ 32)) 1)
          ((2 ^ 32) ^ 1) := by
  have length : (List.range (2 ^ 32)).length = 2 ^ 32 := List.length_range
  have finished := @output_wrapped Nat (List.range (2 ^ 32)) 0 (Nat.le_of_eq length.symm)
  refine ⟨List.nodup_range, length, finished, fun listed => ?_⟩
  obtain ⟨s, -, isOutput⟩ := listed.sound (2 ^ 32 - 1) (by decide)
  rw [finished] at isOutput
  cases isOutput

end Ava6.Arrays
