import Ava6.Arith.BoundRuns
import Mathlib.SetTheory.Cardinal.Order

/-! The origins of bounds. As long as no literal excludes a value that two literals have fixed together, every bound
follows from its origin, and an equality of both bounds from both origins.
-/

namespace Ava6.Arith.Rewriter.BoundInference

open Library OperatorElim

/-- The constraint holds where all literals hold. -/
def Entails (literals : List Node) (constraint : Node) : Prop :=
  ∀ I : Interpretation, (∀ literal ∈ literals, I.Satisfies literal) → I.Satisfies constraint

/-- The bound follows from its own origin. -/
def Side.Own (side : Side) : Prop :=
  ∀ bound, side.bound = some bound → ∃ origin, side.origin = some origin ∧ Entails [origin] bound

/-- Both bounds are one constraint, which follows from both origins. -/
def Together (side other : Side) : Prop :=
  ∃ bound origin origin', side.bound = some bound ∧ other.bound = some bound ∧ side.origin = some origin
    ∧ other.origin = some origin' ∧ Entails [origin, origin'] bound

def Bounds.Justified (b : Bounds) : Prop := b.lower.Own ∧ b.upper.Own ∨ Together b.lower b.upper

/-- The value of the left side that two literals have fixed together. -/
def Bounds.fixed (b : Bounds) : Option Rat :=
  if b.lower.strict = false ∧ b.upper.strict = false ∧ b.lower.value = b.upper.value
    ∧ b.lower.origin ≠ b.upper.origin then b.lower.value
  else none

section Entailment

variable {literals literals' : List Node} {constraint : Node}

theorem Entails.of_mem (member : constraint ∈ literals) : Entails literals constraint :=
  fun _ satisfied => satisfied constraint member

theorem Entails.mono (entailed : Entails literals constraint) (subset : literals ⊆ literals')
    : Entails literals' constraint :=
  fun I satisfied => entailed I (fun literal member => satisfied literal (subset member))

theorem Entails.trans (entailed : Entails literals constraint) (each : ∀ literal ∈ literals, Entails literals' literal)
    : Entails literals' constraint :=
  fun I satisfied => entailed I (fun literal member => each literal member I satisfied)

theorem Together.symm {side other : Side} (together : Together side other) : Together other side := by
  obtain ⟨bound, origin, origin', isBound, isBound', isOrigin, isOrigin', entailed⟩ := together
  exact ⟨bound, origin', origin, isBound', isBound, isOrigin', isOrigin, entailed.mono (by simp)⟩

end Entailment

-- Updates

/-- The bound holds where its origin holds, which is one of the literals. -/
structure Side.Sound (literals : List Node) (lhs : Node) (isLower : Bool) (side : Side) : Prop where
  missing : side.value = none → side = {}
  holds : ∀ v, side.value = some v → ∃ origin ∈ literals, side.origin = some origin
    ∧ ∀ I : Interpretation, I.Satisfies origin → (boundKind isLower side.strict).relates (lhs.value I) v

/-- Two weak bounds with one value and different origins, which are together an equality. -/
structure Fused (side other : Side) : Prop where
  weak : side.strict = false
  otherWeak : other.strict = false
  sameValue : side.value = other.value
  origins : side.origin ≠ other.origin
  together : Together side other

/-- What holds of the two bounds of a left side. -/
structure Invariant (literals : List Node) (lhs : Node) (isLower : Bool) (side other : Side) : Prop where
  sound : side.Sound literals lhs isLower
  otherSound : other.Sound literals lhs !isLower
  justified : side.Own ∧ other.Own ∨ Fused side other

section Updates

variable {rewrite : Node → Node} {literals : List Node} {origin lhs : Node} {value : Rat} {strict isLower : Bool}
  {side other : Side} {isTighter : Rat → Rat → Bool}

theorem Fused.symm (fused : Fused side other) : Fused other side :=
  ⟨fused.otherWeak, fused.weak, fused.sameValue.symm, fused.origins.symm, fused.together.symm⟩

theorem Invariant.symm (invariant : Invariant literals lhs isLower side other)
    : Invariant literals lhs (!isLower) other side := by
  refine ⟨invariant.otherSound, by rw [Bool.not_not]; exact invariant.sound, ?_⟩
  exact invariant.justified.imp And.symm Fused.symm

theorem Fused.fixed {b : Bounds} (fused : Fused b.lower b.upper) : b.fixed = b.lower.value :=
  if_pos ⟨fused.weak, fused.otherWeak, fused.sameValue, fused.origins⟩

theorem satisfies_rewrite (sameValue : ∀ n I, (rewrite n).value I = n.value I) (I : Interpretation) (n : Node)
    : I.Satisfies (rewrite n) ↔ I.Satisfies n := by
  rw [Interpretation.Satisfies, sameValue, Interpretation.Satisfies]

theorem satisfies_mkEquality (I : Interpretation) (a b : Node) : I.Satisfies (mkEquality a b) ↔ a.value I = b.value I := by
  unfold mkEquality
  split
  · exact satisfies_relation I rfl
  · rw [satisfies_relation I rfl, value_sub, OperatorElim.mkZero, value_mkConstRealOrInt]
    simp [Kind.relates, sub_eq_zero]

theorem isRelation_boundKind (isLower strict : Bool) : (boundKind isLower strict).isRelation = true := by
  cases isLower <;> cases strict <;> rfl

theorem satisfies_bound (sameValue : ∀ n I, (rewrite n).value I = n.value I) (I : Interpretation)
    : I.Satisfies (rewrite (mkNode (boundKind isLower strict) [lhs, mkConst value]))
      ↔ (boundKind isLower strict).relates (lhs.value I) value := by
  rw [satisfies_rewrite sameValue, satisfies_relation I (isRelation_boundKind isLower strict), value_mkConst]

theorem eq_of_weak {x y : ℝ} (first : (boundKind isLower false).relates x y)
    (second : (boundKind (!isLower) false).relates x y)
    : x = y := by
  cases isLower
  · exact le_antisymm first second
  · exact le_antisymm second first

/-- A value that the new bound does not exclude. -/
theorem not_improves (tighter : ∀ old new, isTighter old new = true ↔ direction isLower * old < direction isLower * new)
    {w : Rat} (isValue : side.value = some w) (holds : (boundKind isLower strict).relates w value)
    : side.improves isTighter value = false ∧ ¬(strict = true ∧ side.value = some value) := by
  have weak : direction isLower * value ≤ direction isLower * w := by
    cases isLower <;> cases strict <;> simp [boundKind, Kind.relates, direction] at holds ⊢ <;> linarith
  constructor
  · rw [Side.improves, isValue, ← Bool.not_eq_true]
    exact fun improves => absurd ((tighter w value).mp improves) (not_lt.mpr weak)
  · rintro ⟨isStrict, sameValue⟩
    obtain rfl := Option.some.inj (isValue.symm.trans sameValue)
    rw [isStrict] at holds
    cases isLower <;> exact lt_irrefl _ holds

/-- A new bound follows from the literal it comes from. -/
theorem invariant_new (sameValue : ∀ n I, (rewrite n).value I = n.value I) (member : origin ∈ literals)
    (implied : ∀ I : Interpretation, I.Satisfies origin → (boundKind isLower strict).relates (lhs.value I) value)
    (otherSound : other.Sound literals lhs !isLower) (otherOwn : other.Own)
    : Invariant literals lhs isLower
      ⟨some value, strict, some (rewrite (mkNode (boundKind isLower strict) [lhs, mkConst value])), some origin⟩ other := by
  refine ⟨⟨nofun, fun v isValue => ?_⟩, otherSound, Or.inl ⟨fun bound isBound => ?_, otherOwn⟩⟩
  · obtain rfl := Option.some.inj isValue
    exact ⟨origin, member, rfl, implied⟩
  · obtain rfl := Option.some.inj isBound
    refine ⟨origin, rfl, fun I satisfied => (satisfies_bound sameValue I).mpr (implied I (satisfied origin ?_))⟩
    exact List.mem_singleton_self origin

/-- Two weak bounds that become an equality. -/
theorem invariant_equality (sameValue : ∀ n I, (rewrite n).value I = n.value I) (member : origin ∈ literals)
    (implied : ∀ I : Interpretation, I.Satisfies origin → (boundKind isLower false).relates (lhs.value I) value)
    (otherSound : other.Sound literals lhs !isLower) (otherWeak : other.strict = false)
    (otherValue : other.value = some value) {eq : Node}
    (isEq : other.origin = some origin ∧ eq = origin
      ∨ other.origin ≠ some origin ∧ eq = mkEquality lhs (mkConst value))
    : Invariant literals lhs isLower ⟨some value, false, some (rewrite eq), some origin⟩
      { other with bound := some (rewrite eq) } := by
  obtain ⟨otherOrigin, otherMember, isOther, otherImplied⟩ := otherSound.holds value otherValue
  refine ⟨⟨nofun, fun v isValue => ?_⟩, ⟨fun isNone => ?_, otherSound.holds⟩, ?_⟩
  · obtain rfl := Option.some.inj isValue
    exact ⟨origin, member, rfl, implied⟩
  · rw [otherValue] at isNone
    cases isNone
  · rcases isEq with ⟨sameOrigin, rfl⟩ | ⟨otherwise, rfl⟩
    · have own : Entails [eq] (rewrite eq) := fun I satisfied =>
        (satisfies_rewrite sameValue I eq).mpr (satisfied eq (List.mem_singleton_self eq))
      refine Or.inl ⟨fun bound isBound => ?_, fun bound isBound => ?_⟩
      · exact ⟨eq, rfl, Option.some.inj isBound ▸ own⟩
      · exact ⟨eq, sameOrigin, Option.some.inj isBound ▸ own⟩
    · refine Or.inr ⟨rfl, otherWeak, otherValue.symm, Ne.symm otherwise, ?_⟩
      refine ⟨_, origin, otherOrigin, rfl, rfl, rfl, isOther, fun I satisfied => ?_⟩
      rw [satisfies_rewrite sameValue, satisfies_mkEquality, value_mkConst]
      have first := implied I (satisfied origin (by simp))
      have second := otherImplied I (satisfied otherOrigin (by simp))
      rw [otherWeak] at second
      exact eq_of_weak first second

/-- What an update preserves, unless it excludes the value of an equality of both bounds. -/
theorem Invariant.updateSide (sameValue : ∀ n I, (rewrite n).value I = n.value I)
    (tighter : ∀ old new, isTighter old new = true ↔ direction isLower * old < direction isLower * new)
    (invariant : Invariant literals lhs isLower side other) (member : origin ∈ literals)
    (implied : ∀ I : Interpretation, I.Satisfies origin → (boundKind isLower strict).relates (lhs.value I) value)
    (compatible : Fused side other → ∀ w : Rat, side.value = some w → (boundKind isLower strict).relates w value)
    : Invariant literals lhs isLower
        (updateSide rewrite isTighter (boundKind isLower true) (boundKind isLower false) origin lhs value strict side
          other).1
        (updateSide rewrite isTighter (boundKind isLower true) (boundKind isLower false) origin lhs value strict side
          other).2 := by
  have updated := @updateSide_spec rewrite origin lhs value strict side other isTighter (boundKind isLower true)
    (boundKind isLower false)
  generalize BoundInference.updateSide rewrite isTighter (boundKind isLower true) (boundKind isLower false) origin lhs
    value strict side other = result at updated ⊢
  -- a change of one side alone finds no equality
  have otherOwn (changed : ¬(side.improves isTighter value = false ∧ ¬(strict = true ∧ side.value = some value)))
      : other.Own := by
    rcases invariant.justified with own | fused
    · exact own.2
    · cases isValue : side.value with
      | none =>
          have weak := fused.weak
          rw [invariant.sound.missing isValue] at weak
          cases weak
      | some w => exact absurd (not_improves tighter isValue (compatible fused w isValue)) changed
  cases updated with
  | fused eq improves weak otherWeak otherValue isEq =>
      subst weak
      exact invariant_equality sameValue member implied invariant.otherSound otherWeak otherValue isEq
  | tightened improves apart =>
      have isKind : (if strict = true then boundKind isLower true else boundKind isLower false)
          = boundKind isLower strict := by
        cases strict <;> rfl
      rw [isKind]
      refine invariant_new sameValue member implied invariant.otherSound (otherOwn (fun unchanged => ?_))
      rw [improves] at unchanged
      cases unchanged.1
  | madeStrict keeps isStrict sideValue =>
      rw [sideValue]
      subst isStrict
      exact invariant_new sameValue member implied invariant.otherSound
        (otherOwn (fun unchanged => unchanged.2 ⟨rfl, sideValue⟩))
  | kept => exact invariant

end Updates

section Steps

variable {rewrite : Node → Node} {literals : List Node} {origin lhs : Node} {value : Rat} {strict : Bool} {b : Bounds}

theorem Invariant.updateLowerBound (sameValue : ∀ n I, (rewrite n).value I = n.value I)
    (invariant : Invariant literals lhs true b.lower b.upper) (member : origin ∈ literals)
    (implied : ∀ I : Interpretation, I.Satisfies origin → (boundKind true strict).relates (lhs.value I) value)
    (compatible : Fused b.lower b.upper → ∀ w : Rat, b.lower.value = some w → (boundKind true strict).relates w value)
    : Invariant literals lhs true (updateLowerBound rewrite origin lhs value strict b).lower
        (updateLowerBound rewrite origin lhs value strict b).upper :=
  Invariant.updateSide sameValue (by simp [direction]) invariant member implied compatible

theorem Invariant.updateUpperBound (sameValue : ∀ n I, (rewrite n).value I = n.value I)
    (invariant : Invariant literals lhs true b.lower b.upper) (member : origin ∈ literals)
    (implied : ∀ I : Interpretation, I.Satisfies origin → (boundKind false strict).relates (lhs.value I) value)
    (compatible : Fused b.lower b.upper → ∀ w : Rat, b.lower.value = some w → (boundKind false strict).relates w value)
    : Invariant literals lhs true (updateUpperBound rewrite origin lhs value strict b).lower
        (updateUpperBound rewrite origin lhs value strict b).upper := by
  refine (Invariant.updateSide sameValue (by simp [direction]) invariant.symm member implied ?_).symm
  exact fun fused w isValue => compatible fused.symm w (fused.sameValue.symm.trans isValue)

/-- A weak lower bound changes nothing, or becomes the value of the lower bound. -/
theorem updateLowerBound_weak (rewrite : Node → Node) (origin lhs : Node) (value : Rat) (b : Bounds)
    : (updateLowerBound rewrite origin lhs value false b).lower.value = some value
      ∨ updateLowerBound rewrite origin lhs value false b = b := by
  have updated := @updateSide_spec rewrite origin lhs value false b.lower b.upper
    (fun old new => decide (old < new)) .gt .geq
  unfold BoundInference.updateLowerBound
  generalize updateSide rewrite _ _ _ origin lhs value false b.lower b.upper = result at updated ⊢
  cases updated with
  | fused | tightened => exact Or.inl rfl
  | madeStrict keeps isStrict => cases isStrict
  | kept => exact Or.inr rfl

/-- What a relation preserves if it holds of the value that two literals have fixed. -/
theorem Invariant.updateBounds (sameValue : ∀ n I, (rewrite n).value I = n.value I) {relation : Kind}
    (invariant : Invariant literals lhs true b.lower b.upper) (member : origin ∈ literals)
    (implied : ∀ I : Interpretation, I.Satisfies origin → relation.relates (lhs.value I) value)
    (compatible : ∀ w, b.fixed = some w → relation.relates w value)
    : Invariant literals lhs true (updateBounds rewrite origin lhs relation value b).lower
        (updateBounds rewrite origin lhs relation value b).upper := by
  have atFused (fused : Fused b.lower b.upper) (w : Rat) (isValue : b.lower.value = some w) : relation.relates w value :=
    compatible w (fused.fixed.trans isValue)
  cases relation with
  | leq | lt => exact invariant.updateUpperBound sameValue member implied atFused
  | geq | gt => exact invariant.updateLowerBound sameValue member implied atFused
  | equal =>
      have lower : Invariant literals lhs true (BoundInference.updateLowerBound rewrite origin lhs value false b).lower
          (BoundInference.updateLowerBound rewrite origin lhs value false b).upper :=
        invariant.updateLowerBound sameValue member (fun I satisfied => ge_of_eq (implied I satisfied))
          (fun fused w isValue => ge_of_eq (atFused fused w isValue))
      refine lower.updateUpperBound sameValue member (fun I satisfied => le_of_eq (implied I satisfied)) ?_
      intro fused w isValue
      -- the lower bound is now the value, or nothing has changed
      rcases updateLowerBound_weak rewrite origin lhs value b with isNew | unchanged
      · rw [isNew] at isValue
        exact le_of_eq (congrArg _ (Option.some.inj isValue).symm)
      · rw [unchanged] at fused isValue
        exact le_of_eq (atFused fused w isValue)
  | _ => exact invariant

end Steps

-- Replacing bounds by their origins

/-- The constraint is one of the bounds. -/
def Bounds.Stores (b : Bounds) (n : Node) : Prop := b.lower.bound = some n ∨ b.upper.bound = some n

/-- The replacement entails the node, and consists of literals if the node is a literal or is replaced. -/
structure Replaces (literals : List Node) (n : Node) (stored : Prop) (result : Node × List Node) : Prop where
  entails : Entails (result.1 :: result.2) n
  isLiteral : n ∈ literals ∨ stored → result.1 ∈ literals
  toAdd : ∀ added ∈ result.2, added ∈ literals

section Replacing

variable {literals : List Node} {lhs n : Node} {b : Bounds}

theorem Side.Sound.origin_of_bound {isLower : Bool} {side : Side} (sound : side.Sound literals lhs isLower)
    {bound : Node} (isBound : side.bound = some bound)
    : ∃ origin ∈ literals, side.origin = some origin := by
  cases isValue : side.value with
  | none =>
      rw [sound.missing isValue] at isBound
      cases isBound
  | some v =>
      obtain ⟨origin, member, isOrigin, -⟩ := sound.holds v isValue
      exact ⟨origin, member, isOrigin⟩

/-- A bound that is not an equality of both is replaced by its origin. -/
theorem Invariant.replaces_one {isLower : Bool} {side other : Side} (invariant : Invariant literals lhs isLower side other)
    (isBound : side.bound = some n) (notOther : other.bound ≠ some n) (stored : Prop)
    : Replaces literals n stored (side.origin.getD n, []) := by
  obtain ⟨origin, member, isOrigin⟩ := invariant.sound.origin_of_bound isBound
  rw [isOrigin, Option.getD_some]
  refine ⟨?_, fun _ => member, nofun⟩
  rcases invariant.justified with ⟨own, -⟩ | fused
  · obtain ⟨origin', isOrigin', entails⟩ := own n isBound
    rw [isOrigin] at isOrigin'
    exact Option.some.inj isOrigin' ▸ entails
  · obtain ⟨bound, -, -, isBound', otherBound, -⟩ := fused.together
    rw [isBound] at isBound'
    exact absurd (Option.some.inj isBound' ▸ otherBound) notOther

theorem Invariant.replaceByOrigin (invariant : Invariant literals lhs true b.lower b.upper) (n : Node)
    : Replaces literals n (b.Stores n) (replaceByOrigin n b) := by
  unfold BoundInference.replaceByOrigin
  split
  · next both =>
      obtain ⟨origin, member, isOrigin⟩ := invariant.sound.origin_of_bound both.1
      obtain ⟨origin', member', isOrigin'⟩ := invariant.otherSound.origin_of_bound both.2
      rw [isOrigin, isOrigin']
      split
      · refine ⟨?_, fun _ => member, fun added isAdded => List.mem_singleton.mp isAdded ▸ member'⟩
        rcases invariant.justified with ⟨own, -⟩ | fused
        · obtain ⟨origin'', isOrigin'', entails⟩ := own n both.1
          rw [isOrigin] at isOrigin''
          obtain rfl := Option.some.inj isOrigin''
          exact entails.mono (by simp)
        · obtain ⟨bound, first, second, isBound, -, isFirst, isSecond, entails⟩ := fused.together
          rw [isOrigin] at isFirst
          rw [isOrigin'] at isSecond
          rw [both.1] at isBound
          obtain rfl := Option.some.inj isFirst
          obtain rfl := Option.some.inj isSecond
          exact Option.some.inj isBound ▸ entails
      · next isLiteral =>
          refine ⟨.of_mem List.mem_cons_self, fun _ => ?_, nofun⟩
          by_cases isLower : origin = n
          · exact isLower ▸ member
          · by_cases isUpper : origin' = n
            · exact isUpper ▸ member'
            · exact absurd ⟨fun same => isLower (Option.some.inj same), fun same => isUpper (Option.some.inj same)⟩
                isLiteral
  · next notBoth =>
      split
      · next isLower => exact invariant.replaces_one isLower (fun isUpper => notBoth ⟨isLower, isUpper⟩) _
      · next notLower =>
          split
          · next isUpper => exact invariant.symm.replaces_one isUpper notLower _
          · next notUpper =>
              refine ⟨.of_mem List.mem_cons_self, fun isLiteral => ?_, nofun⟩
              exact isLiteral.resolve_right (fun stored => stored.elim notLower notUpper)

theorem replaceByOrigin_of_not_stored (notStored : ¬b.Stores n) : replaceByOrigin n b = (n, []) := by
  unfold replaceByOrigin
  rw [if_neg (fun both => notStored (Or.inl both.1)), if_neg (fun isLower => notStored (Or.inl isLower)),
    if_neg (fun isUpper => notStored (Or.inr isUpper))]

/-- A node is replaced by the origins of the bounds that store it, by induction on the bounds. -/
theorem replaceByAllOrigins_replaces (bounds : List Bounds) (n : Node)
    (invariant : ∀ b ∈ bounds, ∃ lhs, Invariant literals lhs true b.lower b.upper)
    : Replaces literals n (∃ b ∈ bounds, b.Stores n) (replaceByAllOrigins n bounds) := by
  induction bounds generalizing n with
  | nil => exact ⟨.of_mem List.mem_cons_self, fun isLiteral => isLiteral.resolve_right (by simp), nofun⟩
  | cons b rest ih =>
      obtain ⟨lhs, first⟩ := invariant b List.mem_cons_self
      have head := first.replaceByOrigin n
      have tail := ih (replaceByOrigin n b).1 (fun b member => invariant b (List.mem_cons_of_mem _ member))
      simp only [replaceByAllOrigins]
      refine ⟨?_, ?_, ?_⟩
      · refine head.entails.trans (fun literal member => ?_)
        rcases List.mem_cons.mp member with rfl | isAdded
        · exact tail.entails.mono (List.cons_subset_cons _ (List.subset_append_right _ _))
        · exact .of_mem (List.mem_cons_of_mem _ (List.mem_append_left _ isAdded))
      · intro isLiteral
        refine tail.isLiteral ?_
        by_cases inHead : b.Stores n
        · exact Or.inl (head.isLiteral (Or.inr inHead))
        · rw [replaceByOrigin_of_not_stored inHead]
          refine isLiteral.imp id (fun ⟨b', member, stored⟩ => ⟨b', ?_, stored⟩)
          exact (List.mem_cons.mp member).resolve_left (fun same => inHead (same ▸ stored))
      · intro added isAdded
        rcases List.mem_append.mp isAdded with inHead | inTail
        · exact head.toAdd added inHead
        · exact tail.toAdd added inTail

end Replacing

-- Runs

section Runs

variable [LinearOrder Node] (rewrite : Node → Node) (decompose : Node → Decomposition)

/-- The literal does not exclude a value that two literals have fixed together. -/
def Compatible (call : Node × Bool) (d_bounds : State) : Prop :=
  ∀ dec, used rewrite decompose call.1 call.2 = some dec → ∀ w, (get d_bounds dec.lhs).fixed = some w
    → evaluateRelation (strengthen dec.lhs.getType dec.relation dec.bound).1 w
      (strengthen dec.lhs.getType dec.relation dec.bound).2 = true

/-- All calls are compatible with the state they find. -/
def CompatibleRun : List (Node × Bool) → State → Prop
  | [], _ => True
  | call :: rest, d_bounds =>
      Compatible rewrite decompose call d_bounds
      ∧ CompatibleRun rest (add rewrite decompose call.1 call.2 d_bounds).1

variable {rewrite decompose} {calls : List (Node × Bool)}

/-- The comparison of a literal is equivalent to it. -/
theorem Relied.comparison_value (relied : Relied rewrite decompose calls) {call : Node × Bool} (member : call ∈ calls)
    {tmp : Node} (isComparison : comparison rewrite call.1 = some tmp) (I : Interpretation)
    : tmp.value I = call.1.value I := by
  rw [← relied.rewrite_value call.1 I]
  unfold comparison at isComparison
  simp only at isComparison
  split at isComparison
  · cases isComparison
  · split at isComparison
    · cases isComparison
    · obtain rfl := Option.some.inj isComparison
      split
      · unfold normalizeEquality
        split
        · next first second isEqual =>
            obtain ⟨firstFlat, secondFlat⟩ := relied.rewrite_flat call member first second isEqual
            have isValue : (mkNode .equal [first, second]).value I = truth (first.value I = second.value I) :=
              value_relation I rfl first second
            rw [isEqual]
            exact (value_normalizeEquality I firstFlat secondFlat).trans isValue.symm
        · rfl
      · rfl

/-- A used literal is equivalent to its relation. -/
theorem Relied.used_iff (relied : Relied rewrite decompose calls) {call : Node × Bool} (member : call ∈ calls)
    {dec : Decomposition} (isUsed : used rewrite decompose call.1 call.2 = some dec) (I : Interpretation)
    : I.Satisfies call.1 ↔ (strengthen dec.lhs.getType dec.relation dec.bound).1.relates (dec.lhs.value I)
        (strengthen dec.lhs.getType dec.relation dec.bound).2 := by
  obtain ⟨tmp, isComparison, rfl, -⟩ := used_cases isUsed
  rw [strengthen_iff (fun isInt => integer_of_getType I isInt), ← relied.equivalent call member tmp isComparison I]
  rw [Interpretation.Satisfies, Interpretation.Satisfies, relied.comparison_value member isComparison]

/-- What holds of all left sides. -/
def StateInvariant (literals : List Node) (d_bounds : State) : Prop :=
  ∀ lhs, Invariant literals lhs true (get d_bounds lhs).lower (get d_bounds lhs).upper

theorem stateInvariant_empty (literals : List Node) : StateInvariant literals .empty := by
  intro lhs
  exact ⟨⟨fun _ => rfl, nofun⟩, ⟨fun _ => rfl, nofun⟩, Or.inl ⟨nofun, nofun⟩⟩

theorem StateInvariant.add (relied : Relied rewrite decompose calls) {call : Node × Bool} (member : call ∈ calls)
    {d_bounds : State} (invariant : StateInvariant (calls.map Prod.fst) d_bounds)
    (compatible : Compatible rewrite decompose call d_bounds)
    : StateInvariant (calls.map Prod.fst) (add rewrite decompose call.1 call.2 d_bounds).1 := by
  intro lhs
  unfold BoundInference.add
  split
  · exact invariant lhs
  · next dec isUsed =>
      simp only [get_set]
      split
      · next same =>
          subst same
          refine (invariant dec.lhs).updateBounds relied.rewrite_value (List.mem_map_of_mem member) ?_ ?_
          · exact fun I satisfied => (relied.used_iff member isUsed I).mp satisfied
          · exact fun w isFixed => (evaluateRelation_iff _ _ _).mp (compatible dec isUsed w isFixed)
      · exact invariant lhs

/-- Adding literals keeps the invariant if each step is compatible, by induction on the literals. -/
theorem StateInvariant.addAll (relied : Relied rewrite decompose calls) (rest : List (Node × Bool)) (subset : rest ⊆ calls)
    {d_bounds : State} (invariant : StateInvariant (calls.map Prod.fst) d_bounds)
    (compatible : CompatibleRun rewrite decompose rest d_bounds)
    : StateInvariant (calls.map Prod.fst) (addAll rewrite decompose rest d_bounds) := by
  induction rest generalizing d_bounds with
  | nil => exact invariant
  | cons call rest ih =>
      have member := subset List.mem_cons_self
      exact ih (List.subset_of_cons_subset subset) (invariant.add relied member compatible.1) compatible.2

omit [LinearOrder Node] in
/-- Bounds under the invariant are justified: their origins entail them. -/
theorem Invariant.isJustified {literals : List Node} {lhs : Node} {b : Bounds}
    (invariant : Invariant literals lhs true b.lower b.upper)
    : b.Justified := invariant.justified.imp id Fused.together

theorem get_mem {d_bounds : State} {lhs n : Node} (stored : (get d_bounds lhs).Stores n)
    : get d_bounds lhs ∈ d_bounds.entries.map Prod.snd := by
  unfold get at stored ⊢
  cases isFound : d_bounds.find? lhs with
  | none =>
      rw [isFound] at stored
      rcases stored with isLower | isUpper
      · cases isLower
      · cases isUpper
  | some b => exact List.mem_map_of_mem (OrderedMap.find?_eq_some.mp isFound)

/-- Replaced nodes are literals that entail the nodes they replace, by the lemma for one node. -/
theorem StateInvariant.replaceByOrigins {literals : List Node} {d_bounds : State}
    (invariant : StateInvariant literals d_bounds) (nodes : List Node)
    (stored : ∀ n ∈ nodes, ∃ lhs, (get d_bounds lhs).Stores n)
    : (∀ n ∈ replaceByOrigins d_bounds nodes, n ∈ literals)
      ∧ ∀ n ∈ nodes, Entails (replaceByOrigins d_bounds nodes) n := by
  have replaces (n : Node) := replaceByAllOrigins_replaces (d_bounds.entries.map Prod.snd) n (fun b member => by
    obtain ⟨⟨lhs, b⟩, inEntries, rfl⟩ := List.mem_map.mp member
    have isBounds : get d_bounds lhs = b := by
      rw [get, OrderedMap.find?_eq_some.mpr inEntries, Option.getD_some]
    exact ⟨lhs, isBounds ▸ invariant lhs⟩)
  unfold BoundInference.replaceByOrigins
  simp only [List.map_map]
  refine ⟨fun m member => ?_, fun n member => ?_⟩
  · rcases List.mem_append.mp member with isReplaced | isAdded
    · obtain ⟨n, inNodes, rfl⟩ := List.mem_map.mp isReplaced
      obtain ⟨lhs, isStored⟩ := stored n inNodes
      exact (replaces n).isLiteral (Or.inr ⟨_, get_mem isStored, isStored⟩)
    · obtain ⟨toAdd, inLists, inToAdd⟩ := List.mem_flatten.mp isAdded
      obtain ⟨n, -, rfl⟩ := List.mem_map.mp inLists
      exact (replaces n).toAdd m inToAdd
  · refine (replaces n).entails.mono (List.cons_subset.mpr ⟨?_, fun m isAdded => ?_⟩)
    · exact List.mem_append_left _ (List.mem_map_of_mem member)
    · exact List.mem_append_right _ (List.mem_flatten.mpr ⟨_, List.mem_map_of_mem member, isAdded⟩)

/-- The bounds of a run are the tightest that its literals imply, in any order. As long as no literal excludes a value
that two literals have fixed together, all bounds follow from their origins. -/
theorem bounds_justified (relied : Relied rewrite decompose calls)
    : (∀ lhs isLower, Tightest rewrite decompose calls lhs isLower
        ((get (addAll rewrite decompose calls .empty) lhs).side isLower))
      ∧ (∀ calls', calls.Perm calls' → ∀ lhs isLower,
        ((get (addAll rewrite decompose calls .empty) lhs).side isLower).value
          = ((get (addAll rewrite decompose calls' .empty) lhs).side isLower).value
        ∧ ((get (addAll rewrite decompose calls .empty) lhs).side isLower).strict
          = ((get (addAll rewrite decompose calls' .empty) lhs).side isLower).strict)
      ∧ (CompatibleRun rewrite decompose calls .empty →
        (∀ lhs, (get (addAll rewrite decompose calls .empty) lhs).Justified)
        ∧ ∀ nodes : List Node,
          (∀ n ∈ nodes, ∃ lhs, (get (addAll rewrite decompose calls .empty) lhs).Stores n) →
          (∀ n ∈ replaceByOrigins (addAll rewrite decompose calls .empty) nodes, n ∈ calls.map Prod.fst)
          ∧ ∀ n ∈ nodes, Entails (replaceByOrigins (addAll rewrite decompose calls .empty) nodes) n) := by
  refine ⟨fun lhs isLower => ?_, fun calls' perm => addAll_perm rewrite decompose perm, fun compatible => ?_⟩
  · refine tightest_of_rank relied lhs isLower ((rank_addAll rewrite decompose lhs isLower calls .empty).trans ?_)
    cases isLower <;> exact bot_sup_eq _
  · have invariant := (stateInvariant_empty (calls.map Prod.fst)).addAll relied calls (List.Subset.refl _) compatible
    exact ⟨fun lhs => (invariant lhs).isJustified, invariant.replaceByOrigins⟩

end Runs

-- Bounds of a variable

/-- The variable that the runs below bound. -/
def bounded : Node := .var .int 0

def atLeast (c : Int) : Node := mkNode .geq [bounded, .constInteger c]

def lessThan (c : Int) : Node := mkNode .not [atLeast c]

/-- Comparisons of the variable with constants as they are decomposed. -/
def decomposeVariable : Node → Decomposition
  | .apply .geq (.cons lhs (.cons (.constInteger c) .nil)) => ⟨lhs, lhs.isVar, .geq, c⟩
  | .apply .not (.cons (.apply .geq (.cons lhs (.cons (.constInteger c) .nil))) .nil) => ⟨lhs, lhs.isVar, .lt, c⟩
  | n => ⟨n, n.isVar, .distinct, 0⟩

section Variable

variable [LinearOrder Node]

theorem comparison_id (c : Int)
    : comparison id (atLeast c) = some (atLeast c) ∧ comparison id (lessThan c) = some (lessThan c) := ⟨rfl, rfl⟩

theorem relied_variable {calls : List (Node × Bool)}
    (isBound : ∀ call ∈ calls, ∃ c, call.1 = atLeast c ∨ call.1 = lessThan c)
    : Relied id decomposeVariable calls := by
  have isDecomposed (call : Node × Bool) (member : call ∈ calls) (tmp : Node) (isComparison : comparison id call.1 = some tmp)
      : ∃ c, tmp = atLeast c ∨ tmp = lessThan c := by
    obtain ⟨c, isLower | isUpper⟩ := isBound call member
    · rw [isLower, (comparison_id c).1] at isComparison
      exact ⟨c, Or.inl (Option.some.inj isComparison).symm⟩
    · rw [isUpper, (comparison_id c).2] at isComparison
      exact ⟨c, Or.inr (Option.some.inj isComparison).symm⟩
  refine ⟨fun _ _ => rfl, fun call member first second isEqual => ?_, fun call member tmp isComparison => ?_,
    fun call member tmp isComparison I => ?_, fun call member tmp isComparison isInt isEqual => ?_⟩
  · obtain ⟨c, isLower | isUpper⟩ := isBound call member
    · rw [isLower] at isEqual
      cases isEqual
    · rw [isUpper] at isEqual
      cases isEqual
  · obtain ⟨c, rfl | rfl⟩ := isDecomposed call member tmp isComparison
    · exact Or.inl rfl
    · exact Or.inl rfl
  · obtain ⟨c, rfl | rfl⟩ := isDecomposed call member tmp isComparison
    · refine (satisfies_relation I rfl).trans ?_
      rw [Node.value]
      simp [decomposeVariable, atLeast, mkNode, Nodes.ofList]
    · refine (satisfies_not_relation I rfl).trans ?_
      rw [Node.value]
      simp [decomposeVariable, lessThan, atLeast, mkNode, Nodes.ofList, Kind.relates]
  · obtain ⟨c, rfl | rfl⟩ := isDecomposed call member tmp isComparison
    · cases isEqual
    · cases isEqual

theorem used_variable (c : Int)
    : used id decomposeVariable (atLeast c) true = some ⟨bounded, true, .geq, c⟩
      ∧ used id decomposeVariable (lessThan c) true = some ⟨bounded, true, .lt, c⟩ := ⟨rfl, rfl⟩

theorem add_atLeast (c : Int) (d_bounds : State)
    : (add id decomposeVariable (atLeast c) true d_bounds).1
      = d_bounds.set bounded (updateLowerBound id (atLeast c) bounded c false (get d_bounds bounded)) := by
  have rounded : ((⌈(c : Rat)⌉ : Int) : Rat) = c := by rw [Int.ceil_intCast]
  change d_bounds.set bounded (updateLowerBound id (atLeast c) bounded (⌈(c : Rat)⌉ : Int) false
    (get d_bounds bounded)) = _
  rw [rounded]

theorem add_lessThan (c : Int) (d_bounds : State)
    : (add id decomposeVariable (lessThan (c + 1)) true d_bounds).1
      = d_bounds.set bounded (updateUpperBound id (lessThan (c + 1)) bounded c false (get d_bounds bounded)) := by
  have rounded : ((⌈((c + 1 : Int) : Rat) - 1⌉ : Int) : Rat) = c := by
    rw [Int.cast_add, Int.cast_one, add_sub_cancel_right, Int.ceil_intCast]
  change d_bounds.set bounded (updateUpperBound id (lessThan (c + 1)) bounded (⌈((c + 1 : Int) : Rat) - 1⌉ : Int)
    false (get d_bounds bounded)) = _
  rw [rounded]

/-- An equality of both bounds stays the upper bound when the lower bound is tightened alone. -/
theorem get_stale
    : get (addAll id decomposeVariable [(atLeast 5, true), (lessThan (5 + 1), true), (atLeast 6, true)] .empty) bounded
      = ⟨⟨some 6, false, some (atLeast 6), some (atLeast 6)⟩,
        ⟨some 5, false, some (mkNode .equal [bounded, .constInteger 5]), some (lessThan 6)⟩⟩ := by
  rw [addAll, addAll, addAll, addAll, add_atLeast, add_lessThan, add_atLeast, get_set, if_pos rfl, get_set, if_pos rfl,
    get_set, if_pos rfl]
  rfl

omit [LinearOrder Node] in
/-- At least 5, less than 6, and at least 6. -/
theorem stale_equality_not_justified
    : let order : LinearOrder Node := @linearOrderOfSTO _ WellOrderingRel _ (Classical.decRel _)
      let calls := [(atLeast 5, true), (lessThan 6, true), (atLeast 6, true)]
      @Relied order id decomposeVariable calls
        ∧ ¬(@get order (@addAll order id decomposeVariable calls .empty) bounded).Justified := by
  intro order calls
  refine ⟨relied_variable ?_, ?_⟩
  · intro call member
    simp only [calls, List.mem_cons, List.not_mem_nil, or_false] at member
    rcases member with rfl | rfl | rfl
    · exact ⟨5, Or.inl rfl⟩
    · exact ⟨6, Or.inr rfl⟩
    · exact ⟨6, Or.inl rfl⟩
  · have isBounds := @get_stale order
    change get (addAll id decomposeVariable calls .empty) bounded = _ at isBounds
    rw [isBounds]
    rintro (⟨-, own⟩ | ⟨bound, -, -, isBound, isBound', -⟩)
    · obtain ⟨origin, isOrigin, entailed⟩ := own _ rfl
      obtain rfl := Option.some.inj isOrigin
      have lessThanSix : zeros.Satisfies (lessThan 6) := by
        refine (satisfies_not_relation zeros rfl).mpr (not_le.mpr ?_)
        change (0 : ℝ) < ((6 : Int) : ℝ)
        norm_num
      have isFive := (satisfies_relation zeros rfl).mp
        (entailed zeros (fun literal member => List.mem_singleton.mp member ▸ lessThanSix))
      change (0 : ℝ) = ((5 : Int) : ℝ) at isFive
      norm_num at isFive
    · cases (Option.some.inj isBound).trans (Option.some.inj isBound').symm

omit [LinearOrder Node] in
/-- At least 5 and less than 6. -/
theorem two_bounds_justified
    : let order : LinearOrder Node := @linearOrderOfSTO _ WellOrderingRel _ (Classical.decRel _)
      let calls := [(atLeast 5, true), (lessThan 6, true)]
      let d_bounds := @addAll order id decomposeVariable calls .empty
      @Relied order id decomposeVariable calls ∧ @CompatibleRun order id decomposeVariable calls .empty
        ∧ (@get order d_bounds bounded).Justified
        ∧ Entails (@replaceByOrigins order d_bounds [mkNode .equal [bounded, .constInteger 5]])
          (mkNode .equal [bounded, .constInteger 5]) := by
  intro order calls d_bounds
  have relied : Relied id decomposeVariable calls := relied_variable (fun call member => by
    simp only [calls, List.mem_cons, List.not_mem_nil, or_false] at member
    rcases member with rfl | rfl
    · exact ⟨5, Or.inl rfl⟩
    · exact ⟨6, Or.inr rfl⟩)
  have compatible : CompatibleRun id decomposeVariable calls .empty := by
    refine ⟨fun dec _ w isFixed => (nomatch isFixed), fun dec isUsed w isFixed => ?_, trivial⟩
    obtain rfl := Option.some.inj ((used_variable 6).2.symm.trans isUsed)
    have isBounds : get (add id decomposeVariable (atLeast 5) true .empty).1 bounded
        = updateLowerBound id (atLeast 5) bounded (5 : Int) false {} := by
      rw [add_atLeast, get_set, if_pos rfl]
      rfl
    rw [isBounds] at isFixed
    cases isFixed
  have justified := (bounds_justified relied).2.2 compatible
  refine ⟨relied, compatible, justified.1 bounded, (justified.2 _ ?_).2 _ (List.mem_singleton_self _)⟩
  intro n member
  rw [List.mem_singleton.mp member]
  refine ⟨bounded, Or.inl ?_⟩
  change (get (addAll id decomposeVariable [(atLeast 5, true), (lessThan (5 + 1), true)] .empty) bounded).lower.bound = _
  rw [addAll, addAll, addAll, add_atLeast, add_lessThan, get_set, if_pos rfl, get_set, if_pos rfl]
  rfl

end Variable

end Ava6.Arith.Rewriter.BoundInference
