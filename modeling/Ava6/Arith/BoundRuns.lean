import Ava6.Arith.BoundInference
import Ava6.Arith.Rewriter.AtomValues

/-! Runs of the bound inference: the bounds are the tightest that the single literals give, in whatever order the
literals come, and the constraints follow from their origins as long as no literal contradicts an equality that was made
of two bounds.
-/

namespace Ava6.Arith.Rewriter.BoundInference

open Library OperatorElim

section Update

variable (rewrite : Node → Node) {origin lhs : Node} {value : Rat} {strict : Bool} {side other : Side}

/-- An update makes an equality of both bounds, or a new bound, or a bound strict, or nothing. -/
inductive Updated (isTighter : Rat → Rat → Bool) (strictKind weakKind : Kind) (origin lhs : Node) (value : Rat)
    (strict : Bool) (side other : Side) : Side × Side → Prop
  | fused (eq : Node) (improves : side.improves isTighter value = true) (weak : strict = false)
      (otherWeak : other.strict = false) (sameValue : other.value = some value)
      (isEq : other.origin = some origin ∧ eq = origin
        ∨ other.origin ≠ some origin ∧ eq = mkEquality lhs (mkConst value))
      : Updated isTighter strictKind weakKind origin lhs value strict side other
        (⟨some value, strict, some (rewrite eq), some origin⟩, { other with bound := some (rewrite eq) })
  | tightened (improves : side.improves isTighter value = true)
      (apart : ¬(strict = false ∧ other.strict = false ∧ other.value = some value))
      : Updated isTighter strictKind weakKind origin lhs value strict side other
        (⟨some value, strict, some (rewrite (mkNode (if strict then strictKind else weakKind) [lhs, mkConst value])),
          some origin⟩, other)
  | madeStrict (keeps : side.improves isTighter value = false) (isStrict : strict = true)
      (sameValue : side.value = some value)
      : Updated isTighter strictKind weakKind origin lhs value strict side other
        (⟨side.value, strict, some (rewrite (mkNode strictKind [lhs, mkConst value])), some origin⟩, other)
  | kept (keeps : side.improves isTighter value = false) (notStrict : ¬(strict = true ∧ side.value = some value))
      : Updated isTighter strictKind weakKind origin lhs value strict side other (side, other)

theorem updateSide_spec (isTighter : Rat → Rat → Bool) (strictKind weakKind : Kind)
    : Updated rewrite isTighter strictKind weakKind origin lhs value strict side other
        (updateSide rewrite isTighter strictKind weakKind origin lhs value strict side other) := by
  unfold updateSide
  split
  · next improves =>
      split
      · next together =>
          simp only [Bool.and_eq_true, Bool.not_eq_true', decide_eq_true_eq] at together
          obtain ⟨⟨weak, otherWeak⟩, sameValue⟩ := together
          refine .fused _ improves weak otherWeak sameValue ?_
          split
          · next sameOrigin => exact Or.inl ⟨sameOrigin, rfl⟩
          · next otherOrigin => exact Or.inr ⟨otherOrigin, rfl⟩
      · next apart =>
          refine .tightened improves (fun together => apart ?_)
          obtain ⟨weak, otherWeak, sameValue⟩ := together
          simp [weak, otherWeak, sameValue]
  · next keeps =>
      rw [Bool.not_eq_true] at keeps
      split
      · next isStrict =>
          obtain ⟨isTrue, sameValue⟩ := Bool.and_eq_true_iff.mp isStrict
          exact .madeStrict keeps isTrue (of_decide_eq_true sameValue)
      · next notStrict =>
          refine .kept keeps (fun isStrict => notStrict ?_)
          exact Bool.and_eq_true_iff.mpr ⟨isStrict.1, decide_eq_true isStrict.2⟩

end Update

-- The ranks of bounds

section Ranks

/-- Lower bounds are ordered by their values, upper bounds by the opposite of their values. -/
def direction (isLower : Bool) : Rat := if isLower then 1 else -1

/-- Tighter bounds have greater ranks, and a strict bound is tighter than a weak one. -/
def rank (isLower : Bool) (v : Rat) (strict : Bool) : Rat ×ₗ Bool := toLex (direction isLower * v, strict)

def Side.rank (isLower : Bool) (side : Side) : WithBot (Rat ×ₗ Bool) :=
  match side.value with
  | none => ⊥
  | some v => ((BoundInference.rank isLower v side.strict : Rat ×ₗ Bool) : WithBot (Rat ×ₗ Bool))

variable (rewrite : Node → Node) {origin lhs : Node} {value : Rat} {strict : Bool} {side other : Side}
  {isTighter : Rat → Rat → Bool}

theorem direction_injective (isLower : Bool) {v v' : Rat} (same : direction isLower * v = direction isLower * v')
    : v = v' := by
  cases isLower <;> simpa [direction] using same

theorem rank_of_improves (isLower : Bool)
    (tighter : ∀ old new, isTighter old new = true ↔ direction isLower * old < direction isLower * new)
    (improves : side.improves isTighter value = true)
    : max (side.rank isLower) (rank isLower value strict) = rank isLower value strict := by
  cases isValue : side.value with
  | none =>
      simp only [Side.rank, isValue]
      exact bot_sup_eq _
  | some old =>
      simp only [Side.improves, isValue] at improves
      simp only [Side.rank, isValue]
      refine max_eq_right (WithBot.coe_le_coe.mpr ?_)
      exact (Prod.Lex.toLex_lt_toLex.mpr (Or.inl ((tighter old value).mp improves))).le

/-- An update makes the bound at least as tight as the new one. -/
theorem rank_updateSide (isLower : Bool)
    (tighter : ∀ old new, isTighter old new = true ↔ direction isLower * old < direction isLower * new)
    (strictKind weakKind : Kind)
    : (updateSide rewrite isTighter strictKind weakKind origin lhs value strict side other).1.rank isLower
      = max (side.rank isLower) (rank isLower value strict) := by
  have updated := @updateSide_spec rewrite origin lhs value strict side other isTighter strictKind weakKind
  generalize updateSide rewrite isTighter strictKind weakKind origin lhs value strict side other = result at updated
  cases updated with
  | fused eq improves => exact (rank_of_improves isLower tighter improves).symm
  | tightened improves => exact (rank_of_improves isLower tighter improves).symm
  | madeStrict keeps isStrict sameValue =>
      have less : rank isLower value side.strict ≤ rank isLower value true :=
        Prod.Lex.toLex_le_toLex.mpr (Or.inr ⟨rfl, le_top⟩)
      rw [Side.rank, Side.rank, sameValue, isStrict]
      exact (max_eq_right (WithBot.coe_le_coe.mpr less)).symm
  | kept keeps notStrict =>
      unfold Side.improves at keeps
      unfold Side.rank
      split at keeps
      · cases keeps
      · next old isValue =>
          have notLess : ¬direction isLower * old < direction isLower * value := by
            intro less
            rw [(tighter old value).mpr less] at keeps
            cases keeps
          rw [isValue]
          refine (max_eq_left (WithBot.coe_le_coe.mpr ?_)).symm
          rcases lt_or_eq_of_le (not_lt.mp notLess) with below | same
          · exact (Prod.Lex.toLex_lt_toLex.mpr (Or.inl below)).le
          · have weak : strict = false := by
              rw [← Bool.not_eq_true]
              intro isStrict
              exact notStrict ⟨isStrict, isValue.trans (congrArg some (direction_injective isLower same).symm)⟩
            rw [weak]
            exact Prod.Lex.toLex_le_toLex.mpr (Or.inr ⟨same, bot_le⟩)

/-- The other bound keeps its value. -/
theorem rank_updateSide_other (isLower : Bool) (strictKind weakKind : Kind)
    : (updateSide rewrite isTighter strictKind weakKind origin lhs value strict side other).2.rank isLower
      = other.rank isLower := by
  have updated := @updateSide_spec rewrite origin lhs value strict side other isTighter strictKind weakKind
  generalize updateSide rewrite isTighter strictKind weakKind origin lhs value strict side other = result at updated
  cases updated <;> rfl

end Ranks

-- The ranks in a run

def Bounds.side (b : Bounds) (isLower : Bool) : Side := if isLower then b.lower else b.upper

/-- Whether the bound that a relation gives is strict, if it gives one. -/
def givenStrict (isLower : Bool) : Kind → Option Bool
  | .equal => some false
  | .geq => if isLower then some false else none
  | .gt => if isLower then some true else none
  | .leq => if isLower then none else some false
  | .lt => if isLower then none else some true
  | _ => none

/-- The rank of the bound that a relation gives. -/
def given (isLower : Bool) (relation : Kind) (bound : Rat) : WithBot (Rat ×ₗ Bool) :=
  match givenStrict isLower relation with
  | none => ⊥
  | some strict => ((rank isLower bound strict : Rat ×ₗ Bool) : WithBot (Rat ×ₗ Bool))

section Runs

variable (rewrite : Node → Node) {origin lhs : Node}

theorem rank_updateLowerBound (isLower : Bool) (value : Rat) (strict : Bool) (b : Bounds)
    : ((updateLowerBound rewrite origin lhs value strict b).side isLower).rank isLower
      = max ((b.side isLower).rank isLower) (if isLower then (rank true value strict : Rat ×ₗ Bool) else ⊥) := by
  cases isLower with
  | true =>
      refine rank_updateSide rewrite true (fun old new => ?_) .gt .geq
      simp [direction]
  | false => exact (rank_updateSide_other rewrite false .gt .geq).trans (sup_bot_eq _).symm

theorem rank_updateUpperBound (isLower : Bool) (value : Rat) (strict : Bool) (b : Bounds)
    : ((updateUpperBound rewrite origin lhs value strict b).side isLower).rank isLower
      = max ((b.side isLower).rank isLower) (if isLower then ⊥ else (rank false value strict : Rat ×ₗ Bool)) := by
  cases isLower with
  | true => exact (rank_updateSide_other rewrite true .lt .leq).trans (sup_bot_eq _).symm
  | false =>
      refine rank_updateSide rewrite false (fun old new => ?_) .lt .leq
      simp [direction]

theorem rank_updateBounds (isLower : Bool) (relation : Kind) (bound : Rat) (b : Bounds)
    : ((updateBounds rewrite origin lhs relation bound b).side isLower).rank isLower
      = max ((b.side isLower).rank isLower) (given isLower relation bound) := by
  cases relation with
  | equal =>
      rw [updateBounds, rank_updateUpperBound, rank_updateLowerBound, max_assoc]
      cases isLower
      · exact congrArg _ (bot_sup_eq _)
      · exact congrArg _ (sup_bot_eq _)
  | leq | lt =>
      rw [updateBounds, rank_updateUpperBound]
      cases isLower <;> rfl
  | geq | gt =>
      rw [updateBounds, rank_updateLowerBound]
      cases isLower <;> rfl
  | _ => exact (sup_bot_eq _).symm

variable [LinearOrder Node] (decompose : Node → Decomposition)

theorem get_set (d_bounds : State) (lhs other : Node) (b : Bounds)
    : get (d_bounds.set lhs b) other = if other = lhs then b else get d_bounds other := by
  rw [get, OrderedMap.find?_set]
  split
  · rfl
  · rfl

/-- The rank of the bound that a call gives a left side. -/
def givenBy (lhs : Node) (isLower : Bool) (call : Node × Bool) : WithBot (Rat ×ₗ Bool) :=
  match used rewrite decompose call.1 call.2 with
  | none => ⊥
  | some dec =>
      if lhs = dec.lhs then
        given isLower (strengthen dec.lhs.getType dec.relation dec.bound).1
          (strengthen dec.lhs.getType dec.relation dec.bound).2
      else ⊥

theorem rank_add (lhs : Node) (isLower : Bool) (call : Node × Bool) (d_bounds : State)
    : ((get (add rewrite decompose call.1 call.2 d_bounds).1 lhs).side isLower).rank isLower
      = max (((get d_bounds lhs).side isLower).rank isLower) (givenBy rewrite decompose lhs isLower call) := by
  unfold add givenBy
  cases used rewrite decompose call.1 call.2 with
  | none => exact (sup_bot_eq _).symm
  | some dec =>
      simp only [get_set]
      split
      · next same =>
          rw [same]
          exact rank_updateBounds rewrite isLower _ _ _
      · exact (sup_bot_eq _).symm

/-- The bounds of a run are the greatest that its calls give. -/
theorem rank_addAll (lhs : Node) (isLower : Bool) (calls : List (Node × Bool)) (d_bounds : State)
    : ((get (addAll rewrite decompose calls d_bounds) lhs).side isLower).rank isLower
      = max (((get d_bounds lhs).side isLower).rank isLower)
        ((calls.map (givenBy rewrite decompose lhs isLower)).foldr max ⊥) := by
  induction calls generalizing d_bounds with
  | nil => exact (sup_bot_eq _).symm
  | cons call rest ih =>
      obtain ⟨n, onlyVariables⟩ := call
      rw [addAll, ih, List.map_cons, List.foldr_cons, ← max_assoc]
      exact congrArg (max · _) (rank_add rewrite decompose lhs isLower (n, onlyVariables) d_bounds)

/-- A side without value is as at the start. -/
def Side.Complete (side : Side) : Prop := side.value = none → side = {}

omit [LinearOrder Node] in
theorem complete_updateSide {isTighter : Rat → Rat → Bool} {strictKind weakKind : Kind} {value : Rat} {strict : Bool}
    {side other : Side} (complete : side.Complete) (otherComplete : other.Complete)
    : (updateSide rewrite isTighter strictKind weakKind origin lhs value strict side other).1.Complete
      ∧ (updateSide rewrite isTighter strictKind weakKind origin lhs value strict side other).2.Complete := by
  have updated := @updateSide_spec rewrite origin lhs value strict side other isTighter strictKind weakKind
  generalize updateSide rewrite isTighter strictKind weakKind origin lhs value strict side other = result at updated
  cases updated with
  | fused eq improves weak otherWeak sameValue =>
      exact ⟨nofun, fun isNone => absurd (sameValue.symm.trans isNone) (Option.some_ne_none value)⟩
  | tightened => exact ⟨nofun, otherComplete⟩
  | madeStrict keeps isStrict sameValue =>
      exact ⟨fun isNone => absurd (sameValue.symm.trans isNone) (Option.some_ne_none value), otherComplete⟩
  | kept => exact ⟨complete, otherComplete⟩

def Bounds.Complete (b : Bounds) : Prop := b.lower.Complete ∧ b.upper.Complete

omit [LinearOrder Node] in
theorem complete_updateBounds {b : Bounds} (complete : b.Complete) (relation : Kind) (bound : Rat)
    : (updateBounds rewrite origin lhs relation bound b).Complete := by
  have lower (strict : Bool) : (updateLowerBound rewrite origin lhs bound strict b).Complete :=
    complete_updateSide rewrite complete.1 complete.2
  have upper {b : Bounds} (complete : b.Complete) (strict : Bool)
      : (updateUpperBound rewrite origin lhs bound strict b).Complete :=
    (complete_updateSide rewrite complete.2 complete.1).symm
  cases relation with
  | leq => exact upper complete false
  | lt => exact upper complete true
  | equal => exact upper (lower false) false
  | gt => exact lower true
  | geq => exact lower false
  | _ => exact complete

theorem complete_addAll (calls : List (Node × Bool)) {d_bounds : State} (complete : ∀ lhs, (get d_bounds lhs).Complete)
    (lhs : Node)
    : (get (addAll rewrite decompose calls d_bounds) lhs).Complete := by
  induction calls generalizing d_bounds with
  | nil => exact complete lhs
  | cons call rest ih =>
      refine ih (fun lhs => ?_)
      unfold add
      split
      · exact complete lhs
      · simp only [get_set]
        split
        · exact complete_updateBounds rewrite (complete _) _ _
        · exact complete lhs

omit [LinearOrder Node] in
theorem Side.eq_of_rank {side side' : Side} (isLower : Bool) (complete : side.Complete) (complete' : side'.Complete)
    (sameRank : side.rank isLower = side'.rank isLower)
    : side.value = side'.value ∧ side.strict = side'.strict := by
  unfold Side.rank at sameRank
  split at sameRank
  · next isNone =>
      split at sameRank
      · next isNone' => rw [complete isNone, complete' isNone']; exact ⟨rfl, rfl⟩
      · cases sameRank
  · next v isValue =>
      split at sameRank
      · cases sameRank
      · next v' isValue' =>
          have same := Prod.mk.inj (toLex.injective (WithBot.coe_inj.mp sameRank))
          rw [isValue, isValue', direction_injective isLower same.1]
          exact ⟨rfl, same.2⟩

/-- The bounds do not depend on the order of the calls. -/
theorem addAll_perm {calls calls' : List (Node × Bool)} (perm : calls.Perm calls') (lhs : Node) (isLower : Bool)
    : ((get (addAll rewrite decompose calls .empty) lhs).side isLower).value
        = ((get (addAll rewrite decompose calls' .empty) lhs).side isLower).value
      ∧ ((get (addAll rewrite decompose calls .empty) lhs).side isLower).strict
        = ((get (addAll rewrite decompose calls' .empty) lhs).side isLower).strict := by
  have atStart (lhs : Node) : (get .empty lhs).Complete := ⟨fun _ => rfl, fun _ => rfl⟩
  have complete (calls : List (Node × Bool))
      : ((get (addAll rewrite decompose calls .empty) lhs).side isLower).Complete := by
    have both := complete_addAll rewrite decompose calls atStart lhs
    cases isLower
    · exact both.2
    · exact both.1
  refine Side.eq_of_rank isLower (complete calls) (complete calls') ?_
  rw [rank_addAll, rank_addAll]
  refine congrArg _ ((perm.map _).foldr_eq' ?_ ⊥)
  intro first _ second _ greatest
  exact max_left_comm second first greatest

end Runs

-- What literals imply

/-- The relation of a left side to its lower or upper bound. -/
def boundKind (isLower strict : Bool) : Kind :=
  if isLower then (if strict then .gt else .geq) else (if strict then .lt else .leq)

/-- A value of a left side of the type. -/
def InType (tn : TypeNode) (t : ℝ) : Prop := tn = .int → IsInteger t

/-- All values in the relation are in the other one. -/
def Implies (dec : Decomposition) (k : Kind) (v : Rat) : Prop :=
  ∀ t, InType dec.lhs.getType t → dec.relation.relates t dec.bound → k.relates t v

section Implied

variable {tn : TypeNode} {relation : Kind} {br v v' : Rat} {strict strict' : Bool} {t : ℝ}

/-- Greater ranks are tighter bounds. -/
theorem relates_of_rank (isLower : Bool) (less : rank isLower v' strict' ≤ rank isLower v strict)
    (holds : (boundKind isLower strict).relates t v)
    : (boundKind isLower strict').relates t v' := by
  rw [rank, rank, Prod.Lex.toLex_le_toLex] at less
  rcases less with below | ⟨same, strictness⟩
  · cases isLower with
    | true =>
        have cast : (v' : ℝ) < v := Rat.cast_lt.mpr (by simpa [direction] using below)
        cases strict <;> cases strict' <;> simp [boundKind, Kind.relates] at holds ⊢ <;> linarith
    | false =>
        have cast : (v : ℝ) < v' := Rat.cast_lt.mpr (by simpa [direction] using below)
        cases strict <;> cases strict' <;> simp [boundKind, Kind.relates] at holds ⊢ <;> linarith
  · obtain rfl := direction_injective isLower same
    cases strict' with
    | true =>
        obtain rfl : strict = true := top_le_iff.mp strictness
        exact holds
    | false =>
        cases strict with
        | true => cases isLower <;> exact le_of_lt holds
        | false => exact holds

/-- Rounding a bound of an integer does not change which values are within it. -/
theorem strengthen_iff (inType : InType tn t)
    : (strengthen tn relation br).1.relates t (strengthen tn relation br).2 ↔ relation.relates t br := by
  unfold strengthen
  split
  · next isInt =>
      obtain ⟨z, rfl⟩ := inType isInt
      cases relation with
      | leq =>
          change (z : ℝ) ≤ ((⌊br⌋ : Rat) : ℝ) ↔ (z : ℝ) ≤ br
          rw [Rat.cast_intCast, Int.cast_le, Int.le_floor]
          exact_mod_cast Iff.rfl
      | lt =>
          change (z : ℝ) ≤ ((⌈br - 1⌉ : Rat) : ℝ) ↔ (z : ℝ) < br
          rw [Rat.cast_intCast, Int.cast_le, Int.ceil_sub_one, Int.le_sub_one_iff, Int.lt_ceil]
          exact_mod_cast Iff.rfl
      | gt =>
          change ((⌊br + 1⌋ : Rat) : ℝ) ≤ (z : ℝ) ↔ (br : ℝ) < z
          rw [Rat.cast_intCast, Int.cast_le, Int.floor_add_one, Int.add_one_le_iff, Int.floor_lt]
          exact_mod_cast Iff.rfl
      | geq =>
          change ((⌈br⌉ : Rat) : ℝ) ≤ (z : ℝ) ↔ (br : ℝ) ≤ z
          rw [Rat.cast_intCast, Int.cast_le, Int.ceil_le]
          exact_mod_cast Iff.rfl
      | _ => exact Iff.rfl
  · exact Iff.rfl

theorem Implies.rounded {dec : Decomposition} {k : Kind} (implied : Implies dec k v)
    (t : ℝ) (inType : InType dec.lhs.getType t)
    (holds : (strengthen dec.lhs.getType dec.relation dec.bound).1.relates t
      (strengthen dec.lhs.getType dec.relation dec.bound).2)
    : k.relates t v := implied t inType ((strengthen_iff inType).mp holds)

/-- Rounded equalities are integral. -/
theorem strengthen_inType (integral : tn = .int → relation = .equal → br.den = 1)
    (isEqual : (strengthen tn relation br).1 = .equal)
    : InType tn (strengthen tn relation br).2 := by
  intro isInt
  unfold strengthen at isEqual ⊢
  rw [if_pos isInt] at isEqual ⊢
  cases relation with
  | equal =>
      refine ⟨br.num, ?_⟩
      change ((br : Rat) : ℝ) = _
      rw [← Rat.cast_intCast, Rat.coe_int_num_of_den_eq_one (integral isInt rfl)]
  | leq | lt | gt | geq => cases isEqual
  | _ => cases isEqual

theorem isRelation_strengthen (isRelation : relation.isRelation = true)
    : (strengthen tn relation br).1.isRelation = true := by
  unfold strengthen
  split
  · cases relation <;> first | rfl | cases isRelation
  · exact isRelation

/-- The bound that a relation gives follows from it. -/
theorem relates_given (isLower : Bool) (given : givenStrict isLower relation = some strict)
    (holds : relation.relates t br)
    : (boundKind isLower strict).relates t br := by
  cases relation with
  | equal =>
      obtain rfl := Option.some.inj given
      cases isLower
      · exact le_of_eq holds
      · exact ge_of_eq holds
  | geq | gt | leq | lt =>
      cases isLower <;> cases given
      exact holds
  | _ => cases given

/-- All that follows from the relation follows from its bound. -/
theorem relates_of_given (isLower : Bool) (given : givenStrict isLower relation = some strict)
    (inType : relation = .equal → InType tn br)
    (implied : ∀ t : ℝ, InType tn t → relation.relates t br → (boundKind isLower strict').relates t v')
    (tInType : InType tn t) (holds : (boundKind isLower strict).relates t br)
    : (boundKind isLower strict').relates t v' := by
  cases relation with
  | equal =>
      obtain rfl := Option.some.inj given
      have atBound := implied br (inType rfl) rfl
      cases isLower <;> cases strict'
      · exact le_trans holds atBound
      · exact lt_of_le_of_lt holds atBound
      · exact le_trans atBound holds
      · exact lt_of_lt_of_le atBound holds
  | geq | gt | leq | lt =>
      cases isLower <;> cases given
      exact implied t tInType holds
  | _ => cases given

/-- A relation that gives no bound implies none. -/
theorem not_implied (isLower : Bool) (isRelation : relation.isRelation = true)
    (given : givenStrict isLower relation = none)
    : ¬∀ t : ℝ, InType tn t → relation.relates t br → (boundKind isLower strict').relates t v' := by
  intro implied
  have floorBr := Int.floor_le (br : ℝ)
  have floorV := Int.floor_le (v' : ℝ)
  have ceilBr := Int.le_ceil (br : ℝ)
  have ceilV := Int.le_ceil (v' : ℝ)
  cases isLower with
  | true =>
      have below := implied ((min ⌊(br : ℝ)⌋ ⌊(v' : ℝ)⌋ - 1 : Int) : ℝ) (fun _ => ⟨_, rfl⟩)
      have first : ((min ⌊(br : ℝ)⌋ ⌊(v' : ℝ)⌋ : Int) : ℝ) ≤ ⌊(br : ℝ)⌋ := Int.cast_le.mpr (min_le_left _ _)
      have second : ((min ⌊(br : ℝ)⌋ ⌊(v' : ℝ)⌋ : Int) : ℝ) ≤ ⌊(v' : ℝ)⌋ := Int.cast_le.mpr (min_le_right _ _)
      rw [Int.cast_sub, Int.cast_one] at below
      cases relation with
      | leq | lt =>
          have holds := below (by simp only [Kind.relates]; linarith)
          have atLeast : (v' : ℝ) ≤ (min ⌊(br : ℝ)⌋ ⌊(v' : ℝ)⌋ : Int) - 1 := by
            cases strict'
            · exact holds
            · exact le_of_lt holds
          linarith
      | equal | geq | gt => cases given
      | _ => cases isRelation
  | false =>
      have above := implied ((max ⌈(br : ℝ)⌉ ⌈(v' : ℝ)⌉ + 1 : Int) : ℝ) (fun _ => ⟨_, rfl⟩)
      have first : (⌈(br : ℝ)⌉ : ℝ) ≤ ((max ⌈(br : ℝ)⌉ ⌈(v' : ℝ)⌉ : Int) : ℝ) := Int.cast_le.mpr (le_max_left _ _)
      have second : (⌈(v' : ℝ)⌉ : ℝ) ≤ ((max ⌈(br : ℝ)⌉ ⌈(v' : ℝ)⌉ : Int) : ℝ) := Int.cast_le.mpr (le_max_right _ _)
      rw [Int.cast_add, Int.cast_one] at above
      cases relation with
      | geq | gt =>
          have holds := above (by simp only [Kind.relates]; linarith)
          have atMost : (max ⌈(br : ℝ)⌉ ⌈(v' : ℝ)⌉ : Int) + 1 ≤ (v' : ℝ) := by
            cases strict'
            · exact holds
            · exact le_of_lt holds
          linarith
      | equal | leq | lt => cases given
      | _ => cases isRelation

end Implied

-- The tightest bounds

section Tightest

variable [LinearOrder Node] (rewrite : Node → Node) (decompose : Node → Decomposition)

/-- What is relied on: rewriting keeps values and flattens equalities, and a comparison is decomposed to an equivalent
relation of a left side to a constant, which is integral if a left side of type Int is equal to it. -/
structure Relied (calls : List (Node × Bool)) : Prop where
  rewrite_value : ∀ n I, (rewrite n).value I = n.value I
  rewrite_flat : ∀ call ∈ calls, ∀ first second, rewrite call.1 = mkNode .equal [first, second]
    → isFlat first = true ∧ isFlat second = true
  relation : ∀ call ∈ calls, ∀ tmp, comparison rewrite call.1 = some tmp
    → (decompose tmp).relation.isRelation = true ∨ (decompose tmp).relation = .distinct
  equivalent : ∀ call ∈ calls, ∀ tmp, comparison rewrite call.1 = some tmp → ∀ I : Interpretation,
    (I.Satisfies tmp ↔ (decompose tmp).relation.relates ((decompose tmp).lhs.value I) (decompose tmp).bound)
  integral : ∀ call ∈ calls, ∀ tmp, comparison rewrite call.1 = some tmp → (decompose tmp).lhs.getType = .int
    → (decompose tmp).relation = .equal → (decompose tmp).bound.den = 1

/-- A call is used for the left side. -/
def UsedFor (calls : List (Node × Bool)) (lhs : Node) (dec : Decomposition) : Prop :=
  ∃ call ∈ calls, used rewrite decompose call.1 call.2 = some dec ∧ dec.lhs = lhs

/-- The bound is implied by one of the literals, and implies all bounds that one of them implies. -/
structure Tightest (calls : List (Node × Bool)) (lhs : Node) (isLower : Bool) (side : Side) : Prop where
  missing : side.value = none → ∀ dec, UsedFor rewrite decompose calls lhs dec
    → ∀ strict v, ¬Implies dec (boundKind isLower strict) v
  implied : ∀ v, side.value = some v → ∃ dec, UsedFor rewrite decompose calls lhs dec
    ∧ Implies dec (boundKind isLower side.strict) v
  tightest : ∀ v, side.value = some v → ∀ dec, UsedFor rewrite decompose calls lhs dec
    → ∀ strict v', Implies dec (boundKind isLower strict) v'
      → ∀ t, InType lhs.getType t → (boundKind isLower side.strict).relates t v → (boundKind isLower strict).relates t v'

variable {rewrite decompose} {calls : List (Node × Bool)}

theorem used_cases {call : Node × Bool} {dec : Decomposition} (isUsed : used rewrite decompose call.1 call.2 = some dec)
    : ∃ tmp, comparison rewrite call.1 = some tmp ∧ decompose tmp = dec ∧ dec.relation ≠ .distinct := by
  unfold used at isUsed
  split at isUsed
  · cases isUsed
  · next tmp isComparison =>
      simp only at isUsed
      split at isUsed
      · cases isUsed
      · next condition =>
          obtain rfl := Option.some.inj isUsed
          refine ⟨tmp, isComparison, rfl, fun isDistinct => condition ?_⟩
          simp [isDistinct]

theorem Relied.used_relation (relied : Relied rewrite decompose calls) {call : Node × Bool} (member : call ∈ calls)
    {dec : Decomposition} (isUsed : used rewrite decompose call.1 call.2 = some dec)
    : dec.relation.isRelation = true ∧ (dec.lhs.getType = .int → dec.relation = .equal → dec.bound.den = 1) := by
  obtain ⟨tmp, isComparison, rfl, notDistinct⟩ := used_cases isUsed
  exact ⟨(relied.relation call member tmp isComparison).resolve_right notDistinct,
    relied.integral call member tmp isComparison⟩

theorem givenBy_of_used {call : Node × Bool} {dec : Decomposition} {lhs : Node} (isLower : Bool)
    (isUsed : used rewrite decompose call.1 call.2 = some dec) (isLhs : dec.lhs = lhs)
    : givenBy rewrite decompose lhs isLower call
      = given isLower (strengthen dec.lhs.getType dec.relation dec.bound).1
        (strengthen dec.lhs.getType dec.relation dec.bound).2 := by
  unfold givenBy
  rw [isUsed]
  exact if_pos isLhs.symm

omit [LinearOrder Node] in
/-- The greatest of some ranks is one of them, or there is none. -/
theorem foldr_max_mem {ranks : List (WithBot (Rat ×ₗ Bool))} {r : Rat ×ₗ Bool}
    (isGreatest : ranks.foldr max ⊥ = (r : WithBot (Rat ×ₗ Bool)))
    : (r : WithBot (Rat ×ₗ Bool)) ∈ ranks := by
  induction ranks with
  | nil => cases isGreatest
  | cons first rest ih =>
      rw [List.foldr_cons] at isGreatest
      rcases max_choice first (rest.foldr max ⊥) with isFirst | isRest
      · rw [isFirst] at isGreatest
        exact isGreatest ▸ List.mem_cons_self
      · rw [isRest] at isGreatest
        exact List.mem_cons_of_mem _ (ih isGreatest)

omit [LinearOrder Node] in
theorem le_foldr_max {ranks : List (WithBot (Rat ×ₗ Bool))} {r : WithBot (Rat ×ₗ Bool)} (member : r ∈ ranks)
    : r ≤ ranks.foldr max ⊥ := by
  induction ranks with
  | nil => cases member
  | cons first rest ih =>
      rw [List.foldr_cons]
      rcases List.mem_cons.mp member with rfl | inRest
      · exact le_max_left _ _
      · exact (ih inRest).trans (le_max_right _ _)

omit [LinearOrder Node] in
theorem Side.rank_eq_bot {side : Side} {isLower : Bool} : side.rank isLower = ⊥ ↔ side.value = none := by
  unfold Side.rank
  split
  · next isNone => simp [isNone]
  · next isSome => simp [isSome]

/-- The bounds of a side in terms of the relations that are given. -/
theorem tightest_of_rank (relied : Relied rewrite decompose calls) (lhs : Node) (isLower : Bool) {side : Side}
    (isRank : side.rank isLower = (calls.map (givenBy rewrite decompose lhs isLower)).foldr max ⊥)
    : Tightest rewrite decompose calls lhs isLower side := by
  refine ⟨fun isNone dec isUsed strict v implied => ?_, fun v isValue => ?_,
    fun v isValue dec isUsed strict v' implied t inType holds => ?_⟩
  · obtain ⟨call, member, isUsed, isLhs⟩ := isUsed
    have isRelation := (relied.used_relation member isUsed).1
    have isBot : givenBy rewrite decompose lhs isLower call = ⊥ := by
      refine le_bot_iff.mp ?_
      rw [← Side.rank_eq_bot.mpr isNone, isRank]
      exact le_foldr_max (List.mem_map_of_mem member)
    rw [givenBy_of_used isLower isUsed isLhs, given] at isBot
    split at isBot
    · next noBound => exact not_implied isLower (isRelation_strengthen isRelation) noBound implied.rounded
    · cases isBot
  · rw [Side.rank, isValue] at isRank
    obtain ⟨call, member, isGiven⟩ := List.mem_map.mp (foldr_max_mem isRank.symm)
    cases isUsed : used rewrite decompose call.1 call.2 with
    | none =>
        rw [givenBy, isUsed] at isGiven
        cases isGiven
    | some dec =>
        by_cases isLhs : dec.lhs = lhs
        · refine ⟨dec, ⟨call, member, isUsed, isLhs⟩, fun t inType holds => ?_⟩
          rw [givenBy_of_used isLower isUsed isLhs, given] at isGiven
          split at isGiven
          · cases isGiven
          · next strict given =>
              have same := WithBot.coe_inj.mp isGiven
              exact relates_of_rank isLower same.ge
                (relates_given isLower given ((strengthen_iff inType).mpr holds))
        · rw [givenBy, isUsed] at isGiven
          simp only [if_neg (Ne.symm isLhs)] at isGiven
          cases isGiven
  · obtain ⟨call, member, isUsed, isLhs⟩ := isUsed
    obtain ⟨isRelation, integral⟩ := relied.used_relation member isUsed
    have less : givenBy rewrite decompose lhs isLower call ≤ side.rank isLower := by
      rw [isRank]
      exact le_foldr_max (List.mem_map_of_mem member)
    rw [Side.rank, isValue, givenBy_of_used isLower isUsed isLhs, given] at less
    split at less
    · next noBound =>
        exact absurd implied.rounded (not_implied isLower (isRelation_strengthen isRelation) noBound)
    · next strict' given =>
        rw [← isLhs] at inType
        refine relates_of_given isLower given (strengthen_inType integral) implied.rounded inType ?_
        exact relates_of_rank isLower (WithBot.coe_le_coe.mp less) holds

end Tightest

end Ava6.Arith.Rewriter.BoundInference
