import Ava6.Expr.DType

/-! Well-foundedness is decided exactly, and ground terms are built exactly where there are finite
terms, whatever was asked before. No type of a ground term stands above a subterm of the same type.
-/

namespace Ava6.Expr

open Library.Derivation

variable {D O : Type}

-- Finite terms

namespace Node

inductive ProperSubterm : Node D O → Node D O → Prop
  | arg {d : D} {ctor : Nat} {args : List (Node D O)} {arg : Node D O} (isArg : arg ∈ args)
    : ProperSubterm arg (applyConstructor d ctor args)
  | deeper {d : D} {ctor : Nat} {args : List (Node D O)} {arg se : Node D O} (isArg : arg ∈ args)
    (below : ProperSubterm se arg) : ProperSubterm se (applyConstructor d ctor args)

def Subterm (se e : Node D O) : Prop := se = e ∨ ProperSubterm se e

variable {se : Node D O}

theorem properSubterm_apply {d : D} {ctor : Nat} {args : List (Node D O)}
    : ProperSubterm se (applyConstructor d ctor args) ↔ ∃ arg ∈ args, Subterm se arg := by
  constructor
  · intro proper
    cases proper with
    | arg isArg => exact ⟨se, isArg, Or.inl rfl⟩
    | deeper isArg below => exact ⟨_, isArg, Or.inr below⟩
  · rintro ⟨arg, isArg, rfl | below⟩
    · exact .arg isArg
    · exact .deeper isArg below

theorem not_properSubterm_groundTerm {o : O} {isValue : Bool}
    : ¬ProperSubterm se (groundTerm o isValue) := nofun

theorem ProperSubterm.trans {first second third : Node D O} (inner : ProperSubterm first second)
    (outer : ProperSubterm second third)
    : ProperSubterm first third := by
  induction outer with
  | arg isArg => exact .deeper isArg inner
  | deeper isArg _ ih => exact .deeper isArg (ih inner)

/-- No type stands above itself. -/
def Simple (e : Node D O) : Prop :=
  ∀ upper, Subterm upper e → ∀ lower, ProperSubterm lower upper → lower.type ≠ upper.type

theorem Simple.subterm {e : Node D O} (simple : Simple e) (subterm : ProperSubterm se e)
    : Simple se := by
  intro upper below lower proper
  refine simple upper (Or.inr ?_) lower proper
  rcases below with rfl | deeper
  · exact subterm
  · exact deeper.trans subterm

variable [DecidableEq D]

mutual

theorem getSubtermWithType_some {t : D} {se : Node D O} {isTop : Bool} (e : Node D O)
    (found : getSubtermWithType t isTop e = some se)
    : Subterm se e ∧ se.type = .datatype t ∧ (isTop = true → ProperSubterm se e) := by
  cases e with
  | groundTerm o isValue => cases found
  | applyConstructor d ctor args =>
      rw [getSubtermWithType] at found
      split at found
      · next isHere =>
          simp only [Bool.and_eq_true, Bool.not_eq_true', beq_iff_eq] at isHere
          cases found
          exact ⟨Or.inl rfl, by rw [type, isHere.2], by simp [isHere.1]⟩
      · obtain ⟨arg, isArg, subterm, isType⟩ := getArgWithType_some args found
        have proper : ProperSubterm se (applyConstructor d ctor args) :=
          properSubterm_apply.mpr ⟨arg, isArg, subterm⟩
        exact ⟨Or.inr proper, isType, fun _ => proper⟩

theorem getArgWithType_some {t : D} {se : Node D O} (args : List (Node D O))
    (found : getArgWithType t args = some se)
    : ∃ arg ∈ args, Subterm se arg ∧ se.type = .datatype t := by
  cases args with
  | nil => cases found
  | cons arg rest =>
      rw [getArgWithType] at found
      split at found
      · next inArg =>
          cases found
          have result := getSubtermWithType_some arg inArg
          exact ⟨arg, List.mem_cons_self .., result.1, result.2.1⟩
      · obtain ⟨other, isOther, result⟩ := getArgWithType_some rest found
        exact ⟨other, List.mem_cons_of_mem _ isOther, result⟩

end

mutual

theorem getSubtermWithType_none {t : D} {isTop : Bool} (e : Node D O)
    (notFound : getSubtermWithType t isTop e = none)
    : (∀ se, ProperSubterm se e → se.type ≠ .datatype t) ∧ (isTop = false → e.type ≠ .datatype t) := by
  cases e with
  | groundTerm o isValue =>
      exact ⟨fun _ proper => absurd proper not_properSubterm_groundTerm, fun _ => nofun⟩
  | applyConstructor d ctor args =>
      rw [getSubtermWithType] at notFound
      split at notFound
      · cases notFound
      · next notHere =>
          refine ⟨fun se proper => ?_, fun notTop isType => notHere ?_⟩
          · obtain ⟨arg, isArg, subterm⟩ := properSubterm_apply.mp proper
            exact getArgWithType_none args notFound arg isArg se subterm
          · cases isType
            simp [notTop]

theorem getArgWithType_none {t : D} (args : List (Node D O))
    (notFound : getArgWithType t args = none)
    : ∀ arg ∈ args, ∀ se, Subterm se arg → se.type ≠ .datatype t := by
  cases args with
  | nil => exact nofun
  | cons arg rest =>
      rw [getArgWithType] at notFound
      split at notFound
      · cases notFound
      · next inArg =>
          have result := getSubtermWithType_none arg inArg
          refine List.forall_mem_cons.mpr ⟨fun se subterm => ?_, getArgWithType_none rest notFound⟩
          rcases subterm with rfl | proper
          · exact result.2 rfl
          · exact result.1 se proper

end

end Node

namespace DTypes

open Node

mutual

/-- Finite terms of a type: constructors of its number with arguments of their types, and ground terms
of other sorts. -/
def HasType (sig : DTypes D O) : Node D O → ArgType D O → Prop
  | .applyConstructor d ctor args, type =>
      type = .datatype d ∧ ∃ types, (sig.constructors d)[ctor]? = some types ∧ sig.HaveTypes args types
  | .groundTerm o _, type => type = .other o

def HaveTypes (sig : DTypes D O) : List (Node D O) → List (ArgType D O) → Prop
  | [], [] => True
  | arg :: args, type :: types => sig.HasType arg type ∧ sig.HaveTypes args types
  | _, _ => False

end

variable {sig : DTypes D O}

variable {e : Node D O}

theorem HasType.type_eq {type : ArgType D O} (typed : sig.HasType e type)
    : type = e.type := by
  cases e with
  | applyConstructor d ctor args =>
      rw [HasType] at typed
      exact typed.1
  | groundTerm o isValue =>
      rw [HasType] at typed
      exact typed

variable {args : List (Node D O)} {types : List (ArgType D O)}

theorem HaveTypes.arg
    (typed : sig.HaveTypes args types) {arg : Node D O} (isArg : arg ∈ args)
    : sig.HasType arg arg.type := by
  induction args generalizing types with
  | nil => cases isArg
  | cons first rest ih =>
      cases types with
      | nil => cases typed
      | cons type types =>
          rw [HaveTypes] at typed
          rcases List.mem_cons.mp isArg with rfl | later
          · rw [← typed.1.type_eq]
            exact typed.1
          · exact ih typed.2 later

theorem HasType.subterm {se : Node D O} (typed : sig.HasType e e.type)
    (subterm : ProperSubterm se e)
    : sig.HasType se se.type := by
  induction subterm with
  | arg isArg =>
      rw [HasType] at typed
      obtain ⟨-, types, -, argsTyped⟩ := typed
      exact argsTyped.arg isArg
  | deeper isArg _ ih =>
      rw [HasType] at typed
      obtain ⟨-, types, -, argsTyped⟩ := typed
      exact ih (argsTyped.arg isArg)

theorem exists_haveTypes
    (each : ∀ type ∈ types, ∃ e, sig.HasType e type)
    : ∃ args, sig.HaveTypes args types := by
  induction types with
  | nil => exact ⟨[], by rw [HaveTypes]; trivial⟩
  | cons type types ih =>
      obtain ⟨⟨e, typed⟩, others⟩ := List.forall_mem_cons.mp each
      obtain ⟨args, argsTyped⟩ := ih others
      exact ⟨e :: args, by rw [HaveTypes]; exact ⟨typed, argsTyped⟩⟩

/-- The datatype of an argument, if it is of one. -/
def asDatatype : ArgType D O → Option D
  | .datatype d => some d
  | .other _ => none

/-- A term of a datatype needs terms of the datatypes of the arguments. -/
def termRules (sig : DTypes D O) (d : D) : List (List D) :=
  (sig.constructors d).map (·.filterMap asDatatype)

/-- The check looks at all datatypes that occur in the types of the arguments. -/
def checkRules (sig : DTypes D O) (d : D) : List (List D) :=
  (sig.constructors d).map (·.flatMap sig.datatypesOf)

variable {d : D}

theorem mem_filterMap_asDatatype
    : d ∈ types.filterMap asDatatype ↔ ArgType.datatype d ∈ types := by
  rw [List.mem_filterMap]
  constructor
  · rintro ⟨type, member, isDatatype⟩
    cases type with
    | datatype e =>
        cases isDatatype
        exact member
    | other o => cases isDatatype
  · exact fun member => ⟨_, member, rfl⟩

mutual

theorem derivable_of_hasType (e : Node D O) {d : D} (typed : sig.HasType e (.datatype d))
    : Derivable sig.termRules d := by
  cases e with
  | groundTerm o isValue =>
      rw [HasType] at typed
      cases typed
  | applyConstructor d' ctor args =>
      rw [HasType] at typed
      obtain ⟨same, types, isConstructor, argsTyped⟩ := typed
      cases same
      refine .of_rule (List.mem_map_of_mem (List.mem_of_getElem? isConstructor)) (fun e member => ?_)
      exact derivable_of_haveTypes args argsTyped e (mem_filterMap_asDatatype.mp member)

theorem derivable_of_haveTypes (args : List (Node D O)) {types : List (ArgType D O)}
    (typed : sig.HaveTypes args types) (e : D) (member : ArgType.datatype e ∈ types)
    : Derivable sig.termRules e := by
  cases args with
  | nil =>
      cases types with
      | nil => cases member
      | cons type types => cases typed
  | cons arg args =>
      cases types with
      | nil => cases member
      | cons type types =>
          rw [HaveTypes] at typed
          rcases List.mem_cons.mp member with rfl | later
          · exact derivable_of_hasType arg typed.1
          · exact derivable_of_haveTypes args typed.2 e later

end

theorem hasType_iff_derivable (d : D)
    : (∃ e, sig.HasType e (.datatype d)) ↔ Derivable sig.termRules d := by
  refine ⟨fun ⟨e, typed⟩ => derivable_of_hasType e typed, fun derivable => ?_⟩
  induction derivable with
  | @of_rule d premises isRule _ ih =>
      obtain ⟨types, isConstructor, rfl⟩ := List.mem_map.mp isRule
      obtain ⟨ctor, isCtor⟩ := List.getElem?_of_mem isConstructor
      have each : ∀ type ∈ types, ∃ e, sig.HasType e type := by
        intro type member
        cases type with
        | datatype e => exact ih e (mem_filterMap_asDatatype.mpr member)
        | other o => exact ⟨.groundTerm o false, by rw [HasType]⟩
      obtain ⟨args, argsTyped⟩ := exists_haveTypes each
      exact ⟨.applyConstructor d ctor args, by rw [HasType]; exact ⟨rfl, types, isCtor, argsTyped⟩⟩

variable [DecidableEq D] [Fintype D]

theorem computeWellFounded_eq_search (processing : List D) (d : D)
    : sig.computeWellFounded processing d = search sig.checkRules processing d := by
  fun_induction search sig.checkRules processing d with
  | case1 processing d inProgress => rw [computeWellFounded, if_pos inProgress]
  | case2 processing d fresh ih =>
      rw [computeWellFounded, if_neg fresh, checkRules, List.any_map]
      simp only [Function.comp_def, List.all_flatMap, funext ih]

/-- Datatypes that occur inside other sorts were found to be well-founded when they were declared. -/
def ComponentsWellFounded (sig : DTypes D O) : Prop :=
  ∀ d, ∀ ctor ∈ sig.constructors d, ∀ o, ArgType.other o ∈ ctor →
    ∀ e ∈ sig.componentTypes o, sig.computeWellFounded [] e = true

theorem computeWellFounded_iff_derivable (d : D)
    : sig.computeWellFounded [] d = true ↔ Derivable sig.checkRules d := by
  rw [computeWellFounded_eq_search, search_nil_iff]

/-- Both kinds of rules derive the same datatypes. -/
theorem derivable_checkRules_iff (declared : sig.ComponentsWellFounded) (d : D)
    : Derivable sig.checkRules d ↔ Derivable sig.termRules d := by
  constructor
  · intro derivable
    induction derivable with
    | @of_rule d premises isRule _ ih =>
        obtain ⟨types, isConstructor, rfl⟩ := List.mem_map.mp isRule
        refine .of_rule (List.mem_map_of_mem isConstructor) (fun e member => ih e ?_)
        exact List.mem_flatMap.mpr
          ⟨.datatype e, mem_filterMap_asDatatype.mp member, List.mem_singleton_self e⟩
  · intro derivable
    induction derivable with
    | @of_rule d premises isRule _ ih =>
        obtain ⟨types, isConstructor, rfl⟩ := List.mem_map.mp isRule
        refine .of_rule (List.mem_map_of_mem isConstructor) (fun e member => ?_)
        obtain ⟨type, isType, inType⟩ := List.mem_flatMap.mp member
        cases type with
        | datatype e' =>
            rw [List.mem_singleton.mp inType]
            exact ih e' (mem_filterMap_asDatatype.mpr isType)
        | other o =>
            exact (computeWellFounded_iff_derivable e).mp
              (declared d types isConstructor o isType e inType)

/-- A datatype is found well founded just if it has a ground term, by derivations without repetition on a
branch.
-/
theorem computeWellFounded_iff (declared : sig.ComponentsWellFounded) (d : D)
    : sig.computeWellFounded [] d = true ↔ ∃ e, sig.HasType e (.datatype d) := by
  rw [computeWellFounded_iff_derivable, derivable_checkRules_iff declared, hasType_iff_derivable]

-- Ground terms

/-- A finite term of a datatype in which no type stands above itself. -/
def IsGround (sig : DTypes D O) (d : D) (e : Node D O) : Prop :=
  sig.HasType e (.datatype d) ∧ Simple e

/-- What is kept are such terms. -/
def Sound (sig : DTypes D O) (cache : D → D → Option (Node D O)) : Prop :=
  ∀ owner d e, cache owner d = some e → sig.IsGround d e

omit [Fintype D] in
/-- Taking a subterm of the same type leaves no type above itself. -/
theorem isGround_takeSubterm {ctor : Nat}
    (isCtor : (sig.constructors d)[ctor]? = some types)
    (typed : sig.HaveTypes args types) (simple : ∀ arg ∈ args, Simple arg)
    : sig.IsGround d (takeSubterm d (.applyConstructor d ctor args)) := by
  have whole : sig.HasType (.applyConstructor d ctor args) (.datatype d) := by
    rw [HasType]
    exact ⟨rfl, types, isCtor, typed⟩
  rw [takeSubterm]
  split
  · next se found =>
      obtain ⟨-, isType, isProper⟩ := getSubtermWithType_some _ found
      have proper := isProper rfl
      obtain ⟨arg, isArg, below⟩ := properSubterm_apply.mp proper
      refine ⟨isType ▸ HasType.subterm whole proper, ?_⟩
      rcases below with rfl | deeper
      · exact simple se isArg
      · exact (simple arg isArg).subterm deeper
  · next notFound =>
      refine ⟨whole, fun upper above lower proper => ?_⟩
      rcases above with rfl | inside
      · exact (getSubtermWithType_none _ notFound).1 lower proper
      · obtain ⟨arg, isArg, below⟩ := properSubterm_apply.mp inside
        exact simple arg isArg upper below lower proper

omit [DecidableEq D] [Fintype D] in
/-- Arguments that are found have the types asked for. -/
theorem mapM_groundArg_sound {gt compute : D → Option (Node D O)} {isValue : Bool}
    (kept : ∀ d e, gt d = some e → sig.IsGround d e)
    (computed : ∀ d e, compute d = some e → sig.IsGround d e)
    (found : types.mapM (groundArg gt compute isValue) = some args)
    : sig.HaveTypes args types ∧ ∀ arg ∈ args, Simple arg := by
  induction types generalizing args with
  | nil =>
      have isEmpty : [] = args := Option.some.inj found
      subst isEmpty
      exact ⟨by rw [HaveTypes]; trivial, by simp⟩
  | cons type types ih =>
      rw [List.mapM_cons] at found
      simp only [Option.bind_eq_bind, Option.bind_eq_some_iff, Option.pure_def, Option.some.injEq]
        at found
      obtain ⟨arg, isArg, rest, isRest, rfl⟩ := found
      obtain ⟨restTyped, restSimple⟩ := ih isRest
      have typedSimple : sig.HasType arg type ∧ Simple arg := by
        cases type with
        | datatype e =>
            rw [groundArg] at isArg
            split at isArg
            · next known =>
                cases isArg
                exact kept e _ known
            · exact computed e arg isArg
        | other o =>
            cases isArg
            refine ⟨by rw [HasType], fun upper above lower proper => ?_⟩
            rcases above with rfl | inside
            · exact absurd proper not_properSubterm_groundTerm
            · exact absurd inside not_properSubterm_groundTerm
      refine ⟨by rw [HaveTypes]; exact ⟨typedSimple.1, restTyped⟩, ?_⟩
      exact List.forall_mem_cons.mpr ⟨typedSimple.2, restSimple⟩

omit [DecidableEq D] [Fintype D] in
theorem mem_inOrder {ctor : Nat}
    : (types, ctor) ∈ sig.inOrder d ↔ (sig.constructors d)[ctor]? = some types := by
  have isNumber : (types, ctor) ∈ (sig.constructors d).zipIdx ↔ (sig.constructors d)[ctor]? = some types :=
    List.mem_zipIdx_iff_getElem?
  rw [inOrder, List.mem_append, List.mem_filter, List.mem_filter, ← isNumber]
  cases types.isEmpty <;> simp

variable {cache : D → D → Option (Node D O)}

/-- Every term that the search returns is a finite term of the datatype. -/
theorem computeGroundTerm_sound (kept : sig.Sound cache) (isValue : Bool) {processing : List D}
    (found : sig.computeGroundTerm cache isValue processing d = some e)
    : sig.IsGround d e := by
  fun_induction computeGroundTerm sig cache isValue processing d generalizing e with
  | case1 processing d inProgress => cases found
  | case2 processing d fresh ih =>
      obtain ⟨⟨types, ctor⟩, isCtor, built⟩ := List.exists_of_findSome?_eq_some found
      obtain ⟨term, isTerm, rfl⟩ := Option.map_eq_some_iff.mp built
      obtain ⟨args, isArgs, rfl⟩ := Option.map_eq_some_iff.mp isTerm
      obtain ⟨typed, simple⟩ := mapM_groundArg_sound (kept d) (fun e' term => ih e') isArgs
      exact isGround_takeSubterm (mem_inOrder.mp isCtor) typed simple

omit [DecidableEq D] [Fintype D] in
/-- Arguments are found if the datatypes among their types are. -/
theorem mapM_groundArg_isSome {gt compute : D → Option (Node D O)} {isValue : Bool}
    (each : ∀ d ∈ types.filterMap asDatatype, (compute d).isSome)
    : (types.mapM (groundArg gt compute isValue)).isSome := by
  induction types with
  | nil => rfl
  | cons type types ih =>
      have first : (groundArg gt compute isValue type).isSome := by
        cases type with
        | datatype e =>
            rw [groundArg]
            split
            · rfl
            · exact each e (mem_filterMap_asDatatype.mpr (List.mem_cons_self ..))
        | other o => rfl
      have rest : (types.mapM (groundArg gt compute isValue)).isSome :=
        ih (fun e member => each e (mem_filterMap_asDatatype.mpr
          (List.mem_cons_of_mem _ (mem_filterMap_asDatatype.mp member))))
      obtain ⟨arg, isArg⟩ := Option.isSome_iff_exists.mp first
      obtain ⟨args, isArgs⟩ := Option.isSome_iff_exists.mp rest
      rw [List.mapM_cons, isArg, isArgs]
      rfl

/-- The search finds a term unless what is in progress is in the way of all of them. -/
theorem computeGroundTerm_complete (isValue : Bool) {processing : List D}
    (derivable : Derivable sig.termRules d) (clear : Clear sig.termRules processing d)
    : (sig.computeGroundTerm cache isValue processing d).isSome := by
  fun_induction computeGroundTerm sig cache isValue processing d with
  | case1 processing d inProgress => exact absurd inProgress clear.not_mem
  | case2 processing d fresh ih =>
      obtain ⟨premises, isRule, lower⟩ := derivable.exists_rule
      obtain ⟨types, isConstructor, rfl⟩ := List.mem_map.mp isRule
      obtain ⟨ctor, isCtor⟩ := List.getElem?_of_mem isConstructor
      have argsFound : (types.mapM (groundArg (cache d)
          (sig.computeGroundTerm cache isValue (processing ++ [d])) isValue)).isSome :=
        mapM_groundArg_isSome
          (fun e member => ih e (lower e member).1 (clear.push (lower e member).2))
      rw [List.findSome?_isSome_iff]
      refine ⟨(types, ctor), mem_inOrder.mpr isCtor, ?_⟩
      rw [Option.isSome_map, constructorGroundTerm, Option.isSome_map]
      exact argsFound

end DTypes

-- Queries

namespace Caches

variable [DecidableEq D] [Fintype D] {sig : DTypes D O}

/-- What is kept is right. -/
structure Right (sig : DTypes D O) (caches : Caches D O) : Prop where
  wellFounded (d : D) (known : Bool) (isKnown : caches.wellFounded d = some known)
    : known = sig.computeWellFounded [] d
  ground (isValue : Bool) : sig.Sound (caches.ground isValue)

variable {caches : Caches D O}

/-- The cached answer is the computed one. -/
theorem Right.isWellFounded (right : Right sig caches) (d : D)
    : (caches.isWellFounded sig d).1 = sig.computeWellFounded [] d
      ∧ Right sig (caches.isWellFounded sig d).2 := by
  rw [Caches.isWellFounded]
  split
  · next known isKnown => exact ⟨right.wellFounded d known isKnown, right⟩
  · refine ⟨rfl, fun d' known isKnown => ?_, right.ground⟩
    by_cases same : d' = d
    · subst same
      simp only [Function.update_self, Option.some.injEq] at isKnown
      exact isKnown.symm
    · simp only [Function.update_of_ne same] at isKnown
      exact right.wellFounded d' known isKnown

/-- A ground term is cached with its datatype, and the caches stay right. -/
theorem Right.mkGroundTermInternal (right : Right sig caches) (d : D)
    (isValue : Bool)
    : (∀ e, (caches.mkGroundTermInternal sig d isValue).1 = some e → sig.IsGround d e)
      ∧ ((caches.mkGroundTermInternal sig d isValue).1 = none → ¬Derivable sig.termRules d)
      ∧ Right sig (caches.mkGroundTermInternal sig d isValue).2 := by
  rw [Caches.mkGroundTermInternal]
  split
  · next groundTerm isKept =>
      refine ⟨fun e same => ?_, nofun, right⟩
      cases same
      exact right.ground isValue d d groundTerm isKept
  · split
    · next groundTerm isFound =>
        have sound := DTypes.computeGroundTerm_sound (right.ground isValue) isValue isFound
        refine ⟨fun e same => ?_, nofun, right.wellFounded, fun value owner type e isKept => ?_⟩
        · cases same
          exact sound
        · simp only [keep] at isKept
          split at isKept
          · next here =>
              cases isKept
              rw [here.2.2]
              exact sound
          · exact right.ground value owner type e isKept
    · next notFound =>
        refine ⟨nofun, fun _ derivable => ?_, right⟩
        have found : (sig.computeGroundTerm (caches.ground isValue) isValue [] d).isSome :=
          DTypes.computeGroundTerm_complete isValue derivable (clear_nil d)
        rw [notFound] at found
        cases found

/-- After any queries the caches are right, by induction on the queries. -/
theorem right_run (queries : List (Query D)) : Right sig (run sig queries) := by
  have each (caches : Caches D O) (right : Right sig caches) (query : Query D)
      : Right sig (caches.after sig query) := by
    cases query with
    | isWellFounded d => exact (right.isWellFounded d).2
    | mkGroundTerm d => exact (right.mkGroundTermInternal d false).2.2
    | mkGroundValue d => exact (right.mkGroundTermInternal d true).2.2
  have start : Right sig (empty : Caches D O) := ⟨nofun, nofun⟩
  rw [run]
  induction queries using List.reverseRecOn with
  | nil => exact start
  | append_singleton rest query ih =>
      rw [List.foldl_append]
      exact each _ ih query

/-- The answer for a ground term is a finite term without a proper subterm of its type, and there is
none exactly if the datatype has no finite term. -/
def GroundAnswer (sig : DTypes D O) (d : D) : Option (Node D O) → Prop
  | some e => sig.HasType e (.datatype d) ∧ ∀ se, Node.ProperSubterm se e → se.type ≠ .datatype d
  | none => ¬∃ e, sig.HasType e (.datatype d)

/-- A ground term that is answered is one of the datatype, and there is none if nothing is. -/
theorem Right.groundAnswer (right : Right sig caches) (d : D) (isValue : Bool)
    : GroundAnswer sig d (caches.mkGroundTermInternal sig d isValue).1 := by
  obtain ⟨found, notFound, -⟩ := right.mkGroundTermInternal d isValue
  cases answer : (caches.mkGroundTermInternal sig d isValue).1 with
  | some e =>
      obtain ⟨typed, simple⟩ := found e answer
      refine ⟨typed, fun se proper => ?_⟩
      rw [typed.type_eq]
      exact simple e (Or.inl rfl) se proper
  | none =>
      rw [GroundAnswer, DTypes.hasType_iff_derivable]
      exact notFound answer

/-- Well-foundedness and ground terms are exact after any queries. -/
theorem queries_exact (sig : DTypes D O) (declared : sig.ComponentsWellFounded)
    (before : List (Query D)) (d : D)
    : (((run sig before).isWellFounded sig d).1 = true ↔ ∃ e, sig.HasType e (.datatype d))
      ∧ GroundAnswer sig d ((run sig before).mkGroundTerm sig d).1
      ∧ GroundAnswer sig d ((run sig before).mkGroundValue sig d).1 := by
  have right : Right sig (run sig before) := right_run before
  refine ⟨?_, right.groundAnswer d false, right.groundAnswer d true⟩
  rw [(right.isWellFounded d).1]
  exact DTypes.computeWellFounded_iff declared d

/-- Trees with a forest of children, and forests of trees. -/
def treesAndForests : DTypes Bool Unit where
  constructors tree :=
    if tree then [[.other (), .datatype false]]
    else [[.datatype true, .datatype false], []]
  componentTypes _ := []

theorem queries_exact_tree
    : treesAndForests.ComponentsWellFounded
      ∧ ((run treesAndForests [.mkGroundTerm true, .mkGroundValue false]).isWellFounded
        treesAndForests true).1 = true
      ∧ GroundAnswer treesAndForests true
        ((run treesAndForests [.mkGroundTerm true, .mkGroundValue false]).mkGroundTerm
          treesAndForests true).1 := by
  have declared : treesAndForests.ComponentsWellFounded := nofun
  have result := queries_exact treesAndForests declared [.mkGroundTerm true, .mkGroundValue false] true
  refine ⟨declared, result.1.mpr
    ⟨.applyConstructor true 0 [.groundTerm () false, .applyConstructor false 1 []], ?_⟩, result.2.1⟩
  simp [DTypes.HasType, DTypes.HaveTypes, treesAndForests]

end Caches

end Ava6.Expr
