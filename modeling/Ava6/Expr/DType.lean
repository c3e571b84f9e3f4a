import Ava6.Library.Derivation

/-! Blocks of datatypes that may refer to each other: the check that a datatype has finite terms, and
the construction of one of them, both depth-first with the types in progress. Results are kept in the
datatypes.
-/

namespace Ava6.Expr

open Library.Derivation (remaining remaining_push)

/-- The type of an argument: a datatype or another sort. -/
inductive ArgType (D O : Type)
  | datatype (d : D)
  | other (o : O)
deriving DecidableEq

/-- The argument types of the constructors of each datatype, and the datatypes that occur in another
sort. -/
structure DTypes (D O : Type) where
  constructors : D → List (List (ArgType D O))
  componentTypes : O → List D

/-- Terms over constructors and ground terms of other sorts. A constructor is known by its number. -/
inductive Node (D O : Type)
  | applyConstructor (d : D) (ctor : Nat) (args : List (Node D O))
  | groundTerm (o : O) (isValue : Bool)

variable {D O : Type}

namespace Node

def type : Node D O → ArgType D O
  | applyConstructor d _ _ => .datatype d
  | groundTerm o _ => .other o

variable [DecidableEq D]

mutual

/-- The first subterm of a datatype, the term itself included unless it is the top. No datatype
occurs in the ground terms of other sorts. -/
def getSubtermWithType (t : D) (isTop : Bool) : Node D O → Option (Node D O)
  | applyConstructor d ctor args =>
      if !isTop && d == t then some (applyConstructor d ctor args)
      else getArgWithType t args
  | groundTerm _ _ => none

def getArgWithType (t : D) : List (Node D O) → Option (Node D O)
  | [] => none
  | arg :: rest =>
      match getSubtermWithType t false arg with
      | some se => some se
      | none => getArgWithType t rest

end

end Node

namespace DTypes

/-- The datatypes that occur in the type of an argument. -/
def datatypesOf (sig : DTypes D O) : ArgType D O → List D
  | .datatype d => [d]
  | .other o => sig.componentTypes o

def computeWellFounded [DecidableEq D] [Fintype D] (sig : DTypes D O) (processing : List D) (d : D)
    : Bool :=
  if d ∈ processing then false
  else (sig.constructors d).any (fun ctor =>
    ctor.all (fun arg => (sig.datatypesOf arg).all (sig.computeWellFounded (processing ++ [d]))))
termination_by remaining processing
decreasing_by exact remaining_push (by assumption)

/-- A ground term for an argument, looked up or computed for a datatype. -/
def groundArg (gt compute : D → Option (Node D O)) (isValue : Bool) : ArgType D O → Option (Node D O)
  | .datatype e =>
      match gt e with
      | some arg => some arg
      | none => compute e
  | .other o => some (.groundTerm o isValue)

/-- The ground term of a constructor, if there is one for each argument. -/
def constructorGroundTerm (d : D) (gt compute : D → Option (Node D O)) (isValue : Bool)
    (ctor : List (ArgType D O) × Nat) : Option (Node D O) :=
  (ctor.1.mapM (groundArg gt compute isValue)).map (.applyConstructor d ctor.2)

/-- The constructors with their numbers, those without arguments first. -/
def inOrder (sig : DTypes D O) (d : D) : List (List (ArgType D O) × Nat) :=
  (sig.constructors d).zipIdx.filter (·.1.isEmpty)
    ++ (sig.constructors d).zipIdx.filter (!·.1.isEmpty)

/-- A subterm of the same type is taken instead of the term. -/
def takeSubterm [DecidableEq D] (d : D) (e : Node D O) : Node D O :=
  match e.getSubtermWithType d true with
  | some se => se
  | none => e

/-- Looks up the terms that each datatype keeps. -/
def computeGroundTerm [DecidableEq D] [Fintype D] (sig : DTypes D O) (cache : D → D → Option (Node D O))
    (isValue : Bool) (processing : List D) (d : D) : Option (Node D O) :=
  if d ∈ processing then none
  else (sig.inOrder d).findSome? (fun ctor =>
    (constructorGroundTerm d (cache d) (sig.computeGroundTerm cache isValue (processing ++ [d]))
      isValue ctor).map (takeSubterm d))
termination_by remaining processing
decreasing_by exact remaining_push (by assumption)

end DTypes

/-- What the datatypes keep: whether they are well-founded, and ground terms and values by type. -/
structure Caches (D O : Type) where
  wellFounded : D → Option Bool
  ground : Bool → D → D → Option (Node D O)

inductive Query (D : Type)
  | isWellFounded (d : D)
  | mkGroundTerm (d : D)
  | mkGroundValue (d : D)

namespace Caches

variable [DecidableEq D] [Fintype D] (sig : DTypes D O)

def empty : Caches D O := ⟨fun _ => none, fun _ _ _ => none⟩

def isWellFounded (caches : Caches D O) (d : D) : Bool × Caches D O :=
  match caches.wellFounded d with
  | some known => (known, caches)
  | none =>
      let computed := sig.computeWellFounded [] d
      (computed, { caches with wellFounded := Function.update caches.wellFounded d (some computed) })

/-- Keeps a ground term with the datatype it was asked of. -/
def keep (caches : Caches D O) (isValue : Bool) (d : D) (groundTerm : Node D O) : Caches D O :=
  { caches with
    ground := fun value owner type =>
      if value = isValue ∧ owner = d ∧ type = d then some groundTerm
      else caches.ground value owner type }

def mkGroundTermInternal (caches : Caches D O) (d : D) (isValue : Bool)
    : Option (Node D O) × Caches D O :=
  match caches.ground isValue d d with
  | some groundTerm => (some groundTerm, caches)
  | none =>
      match sig.computeGroundTerm (caches.ground isValue) isValue [] d with
      | some groundTerm => (some groundTerm, caches.keep isValue d groundTerm)
      | none => (none, caches)

def mkGroundTerm (caches : Caches D O) (d : D) : Option (Node D O) × Caches D O :=
  caches.mkGroundTermInternal sig d false

def mkGroundValue (caches : Caches D O) (d : D) : Option (Node D O) × Caches D O :=
  caches.mkGroundTermInternal sig d true

def after (caches : Caches D O) : Query D → Caches D O
  | .isWellFounded d => (caches.isWellFounded sig d).2
  | .mkGroundTerm d => (caches.mkGroundTerm sig d).2
  | .mkGroundValue d => (caches.mkGroundValue sig d).2

/-- The caches after queries. -/
def run (queries : List (Query D)) : Caches D O := queries.foldl (after sig) empty

end Caches

end Ava6.Expr
