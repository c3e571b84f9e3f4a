import Ava6.Expr.AciNorm
import Ava6.Library.MonoidOn
import Mathlib.Computability.Language

/-! What terms over associative kinds mean: each kind is a monoid on the values of its type. -/

namespace Ava6.Expr.Aci

open Library

/-- Values of terms: words over letters for strings and sequences, the bits of bit-vectors with the
most significant one first, languages for regular expressions. -/
inductive Value (E U : Type)
  | bool (value : Bool)
  | bits (digits : List Bool)
  | word (letters : List E)
  | language (words : Language E)
  | other (value : U)

variable {E U : Type}

namespace Value

def asBool : Value E U → Bool
  | .bool b => b
  | _ => false

def asBits : Value E U → List Bool
  | .bits digits => digits
  | _ => []

def asWord : Value E U → List E
  | .word letters => letters
  | _ => []

def asLanguage : Value E U → Language E
  | .language words => words
  | _ => 0

def HasType (v : Value E U) : TypeNode → Prop
  | .bool => ∃ b, v = .bool b
  | .bitVector size => ∃ digits, v = .bits digits ∧ digits.length = size
  | .stringLike _ => ∃ letters, v = .word letters
  | .regLan => ∃ words, v = .language words
  | .abstract | .other _ => True

def onBool (f : Bool → Bool → Bool) (e : Bool) (assoc : ∀ a b c, f (f a b) c = f a (f b c))
    (left : ∀ a, f e a = a) (right : ∀ a, f a e = a) : MonoidOn (Value E U) where
  carrier v := v.HasType .bool
  op x y := .bool (f x.asBool y.asBool)
  neutral := .bool e
  neutral_mem := ⟨e, rfl⟩
  op_mem _ _ := ⟨_, rfl⟩
  op_assoc _ _ _ := congrArg _ (assoc ..)
  neutral_op := by
    rintro _ ⟨b, rfl⟩
    exact congrArg _ (left b)
  op_neutral := by
    rintro _ ⟨b, rfl⟩
    exact congrArg _ (right b)

def onBits (size : Nat) (f : Bool → Bool → Bool) (e : Bool)
    (assoc : ∀ a b c, f (f a b) c = f a (f b c)) (left : ∀ a, f e a = a) (right : ∀ a, f a e = a)
    : MonoidOn (Value E U) where
  carrier v := v.HasType (.bitVector size)
  op x y := .bits (List.zipWith f x.asBits y.asBits)
  neutral := .bits (List.replicate size e)
  neutral_mem := ⟨_, rfl, List.length_replicate⟩
  op_mem := by
    rintro _ _ ⟨x, rfl, isSize⟩ ⟨y, rfl, isSize'⟩
    exact ⟨_, rfl, by simp [asBits, isSize, isSize']⟩
  op_assoc := by
    rintro _ _ _ ⟨x, rfl, -⟩ ⟨y, rfl, -⟩ ⟨z, rfl, -⟩
    refine congrArg _ (List.ext_getElem (by simp [asBits, min_assoc]) (fun i _ _ => ?_))
    simp [asBits, assoc]
  neutral_op := by
    rintro _ ⟨x, rfl, isSize⟩
    refine congrArg _ (List.ext_getElem (by simp [asBits, isSize]) (fun i _ _ => ?_))
    simp [asBits, left]
  op_neutral := by
    rintro _ ⟨x, rfl, isSize⟩
    refine congrArg _ (List.ext_getElem (by simp [asBits, isSize]) (fun i _ _ => ?_))
    simp [asBits, right]

/-- Concatenation of bit-vectors of any sizes. -/
def concatBits : MonoidOn (Value E U) where
  carrier v := ∃ digits, v = .bits digits
  op x y := .bits (x.asBits ++ y.asBits)
  neutral := .bits []
  neutral_mem := ⟨_, rfl⟩
  op_mem _ _ := ⟨_, rfl⟩
  op_assoc _ _ _ := congrArg _ (List.append_assoc ..)
  neutral_op := by
    rintro _ ⟨x, rfl⟩
    rfl
  op_neutral := by
    rintro _ ⟨x, rfl⟩
    exact congrArg _ (List.append_nil x)

def concatWords (element : Nat) : MonoidOn (Value E U) where
  carrier v := v.HasType (.stringLike element)
  op x y := .word (x.asWord ++ y.asWord)
  neutral := .word []
  neutral_mem := ⟨_, rfl⟩
  op_mem _ _ := ⟨_, rfl⟩
  op_assoc _ _ _ := congrArg _ (List.append_assoc ..)
  neutral_op := by
    rintro _ ⟨x, rfl⟩
    rfl
  op_neutral := by
    rintro _ ⟨x, rfl⟩
    exact congrArg _ (List.append_nil x)

def onLanguages (f : Language E → Language E → Language E) (e : Language E)
    (assoc : ∀ a b c, f (f a b) c = f a (f b c)) (left : ∀ a, f e a = a) (right : ∀ a, f a e = a)
    : MonoidOn (Value E U) where
  carrier v := v.HasType .regLan
  op x y := .language (f x.asLanguage y.asLanguage)
  neutral := .language e
  neutral_mem := ⟨_, rfl⟩
  op_mem _ _ := ⟨_, rfl⟩
  op_assoc _ _ _ := congrArg _ (assoc ..)
  neutral_op := by
    rintro _ ⟨x, rfl⟩
    exact congrArg _ (left x)
  op_neutral := by
    rintro _ ⟨x, rfl⟩
    exact congrArg _ (right x)

end Value

/-- The monoid of a kind on the values of a type. -/
def operation (k : Kind) (tn : TypeNode) : Option (MonoidOn (Value E U)) :=
  match k with
  | .or => some (Value.onBool or false Bool.or_assoc Bool.false_or Bool.or_false)
  | .and => some (Value.onBool and true Bool.and_assoc Bool.true_and Bool.and_true)
  | .regexpUnion => some (Value.onLanguages (· + ·) 0 add_assoc zero_add add_zero)
  | .regexpInter => some (Value.onLanguages (· ⊓ ·) ⊤ inf_assoc top_inf_eq inf_top_eq)
  | .regexpConcat => some (Value.onLanguages (· * ·) 1 mul_assoc one_mul mul_one)
  | .bitvectorAnd =>
      match tn with
      | .bitVector size =>
          some (Value.onBits size and true Bool.and_assoc Bool.true_and Bool.and_true)
      | _ => none
  | .bitvectorOr =>
      match tn with
      | .bitVector size =>
          some (Value.onBits size or false Bool.or_assoc Bool.false_or Bool.or_false)
      | _ => none
  | .bitvectorXor =>
      match tn with
      | .bitVector size =>
          some (Value.onBits size xor false Bool.xor_assoc Bool.false_xor Bool.xor_false)
      | _ => none
  | .bitvectorConcat => some Value.concatBits
  | .stringConcat =>
      match tn with
      | .stringLike element => some (Value.concatWords element)
      | _ => none

/-- Values for all terms, used for those that have no meaning of their own. -/
structure Interpretation (E U : Type) where
  value : Node → Value E U
  hasType (n : Node) : (value n).HasType n.type

namespace Interpretation

variable (I : Interpretation E U)

def evalLeaf : Leaf → Value E U
  | .constBool value => .bool value
  | .constBitVector digits => .bits digits
  | .emptyWord _ => .word []
  | .emptyWordToRegexp => .language 1
  | .regexpNone => .language 0
  | .regexpAll => .language ⊤
  | .bvEmpty => .bits []
  | .other name type => I.value (.leaf (.other name type))

mutual

def eval : Node → Value E U
  | .leaf symbol => I.evalLeaf symbol
  | .apply k children =>
      match operation k (Node.apply k children).type with
      | some m => m.product (evals children)
      | none => I.value (.apply k children)

def evals : List Node → List (Value E U)
  | [] => []
  | node :: rest => eval node :: evals rest

end

theorem evals_eq_map (nodes : List Node) : I.evals nodes = nodes.map I.eval := by
  induction nodes with
  | nil => rfl
  | cons node rest ih => rw [evals, ih, List.map_cons]

end Interpretation

/-- The types that arguments of a kind may have in a term of a type. -/
def ArgFits (k : Kind) (tn argType : TypeNode) : Prop :=
  match k with
  | .or | .and => argType = .bool
  | .regexpUnion | .regexpInter | .regexpConcat => argType = .regLan
  | .bitvectorConcat => ∃ size, argType = .bitVector size
  | .bitvectorAnd | .bitvectorOr | .bitvectorXor | .stringConcat => argType = tn

mutual

/-- Arguments fit the type of a term or are abstract, and fit unless that type is abstract. -/
def WellTyped : Node → Prop
  | .leaf _ => True
  | .apply k children =>
      AllWellTyped children
      ∧ ∀ t ∈ Node.types children,
        (ArgFits k (Node.apply k children).type t ∨ t = .abstract)
        ∧ ((getNullTerminator k (Node.apply k children).type).isSome
          → ArgFits k (Node.apply k children).type t)

def AllWellTyped : List Node → Prop
  | [] => True
  | node :: rest => WellTyped node ∧ AllWellTyped rest

end

theorem allWellTyped_iff {nodes : List Node} : AllWellTyped nodes ↔ ∀ n ∈ nodes, WellTyped n := by
  induction nodes with
  | nil => simp [AllWellTyped]
  | cons node rest ih => rw [AllWellTyped, ih, List.forall_mem_cons]

theorem types_eq_map (nodes : List Node) : Node.types nodes = nodes.map Node.type := by
  induction nodes with
  | nil => rfl
  | cons node rest ih => rw [Node.types, ih, List.map_cons]

theorem TypeNode.common_of_all_eq {tn : TypeNode} {types : List TypeNode} (notEmpty : types ≠ [])
    (all : ∀ t ∈ types, t = tn)
    : TypeNode.common types = tn := by
  cases types with
  | nil => exact absurd rfl notEmpty
  | cons first rest =>
      obtain ⟨rfl, others⟩ := List.forall_mem_cons.mp all
      rw [TypeNode.common]
      clear all notEmpty
      induction rest with
      | nil => rfl
      | cons t rest ih =>
          obtain ⟨rfl, later⟩ := List.forall_mem_cons.mp others
          rw [List.foldl_cons, TypeNode.leastUpperBound, ite_self]
          exact ih later

/-- Well-typed terms that fit as arguments. -/
def Fits (k : Kind) (tn : TypeNode) (n : Node) : Prop := WellTyped n ∧ ArgFits k tn n.type

theorem wellTyped_apply {k : Kind} {children : List Node} (wellTyped : WellTyped (.apply k children))
    (hasNull : (getNullTerminator k (Node.apply k children).type).isSome)
    : ∀ n ∈ children, Fits k (Node.apply k children).type n := by
  rw [WellTyped, allWellTyped_iff] at wellTyped
  refine fun n member => ⟨wellTyped.1 n member, (wellTyped.2 n.type ?_).2 hasNull⟩
  rw [types_eq_map]
  exact List.mem_map_of_mem member

variable {k : Kind} {tn t : TypeNode} {m : MonoidOn (Value E U)} (I : Interpretation E U)

theorem operation_congr (fits : ArgFits k tn t)
    : (operation k t : Option (MonoidOn (Value E U))) = operation k tn := by
  cases k with
  | bitvectorConcat => rfl
  | or | and | regexpUnion | regexpInter | regexpConcat => rfl
  | bitvectorAnd | bitvectorOr | bitvectorXor | stringConcat =>
      cases (fits : t = tn)
      rfl

/-- A kind has a neutral term for a type exactly if it has an operation there. -/
theorem operation_isSome_iff
    : (operation k tn : Option (MonoidOn (Value E U))).isSome ↔ (getNullTerminator k tn).isSome := by
  cases k <;> cases tn <;> simp [operation, getNullTerminator]

/-- The value of the neutral term. -/
theorem eval_nullTerminator {nt : Node} (isOp : operation k tn = some m)
    (isNull : getNullTerminator k tn = some nt)
    : I.eval nt = m.neutral := by
  cases k <;> cases tn <;>
    simp only [operation, getNullTerminator, reduceCtorEq, Option.some.injEq] at isOp isNull <;>
    subst isOp isNull <;> rfl

/-- Values of arguments that fit are in the carrier. -/
theorem carrier_of_hasType {v : Value E U} (isOp : operation k tn = some m) (fits : ArgFits k tn t)
    (hasType : v.HasType t)
    : m.carrier v := by
  cases k with
  | or | and =>
      cases (fits : t = .bool)
      cases isOp
      exact hasType
  | regexpUnion | regexpInter | regexpConcat =>
      cases (fits : t = .regLan)
      cases isOp
      exact hasType
  | bitvectorConcat =>
      obtain ⟨size, rfl⟩ := fits
      cases isOp
      obtain ⟨digits, isBits, -⟩ := hasType
      exact ⟨digits, isBits⟩
  | bitvectorAnd | bitvectorOr | bitvectorXor | stringConcat =>
      cases (fits : t = tn)
      cases tn <;> simp only [operation, reduceCtorEq, Option.some.injEq] at isOp
      subst isOp
      exact hasType

/-- The values of a concatenation have as many bits as its type says. -/
theorem concat_hasType {children : List Node}
    (typed : ∀ n ∈ children, (∃ size, n.type = .bitVector size) ∧ (I.eval n).HasType n.type)
    : (Value.concatBits.product (children.map I.eval)).HasType
        (.concat (children.map Node.type)) := by
  suffices sized : ∃ size digits, TypeNode.concat (children.map Node.type) = .bitVector size
      ∧ Value.concatBits.product (children.map I.eval) = .bits digits ∧ digits.length = size by
    obtain ⟨size, digits, isType, isProduct, isSize⟩ := sized
    rw [isType]
    exact ⟨digits, isProduct, isSize⟩
  induction children with
  | nil => exact ⟨0, [], rfl, rfl, rfl⟩
  | cons n rest ih =>
      obtain ⟨⟨⟨size, isType⟩, hasType⟩, restTyped⟩ := List.forall_mem_cons.mp typed
      obtain ⟨restSize, restDigits, isRest, isProduct, isRestSize⟩ := ih restTyped
      rw [isType] at hasType
      obtain ⟨digits, isBits, isSize⟩ := hasType
      refine ⟨size + restSize, digits ++ restDigits, ?_, ?_, by simp [isSize, isRestSize]⟩
      · rw [List.map_cons, isType, TypeNode.concat, isRest]
      · rw [List.map_cons, MonoidOn.product_cons, isProduct, isBits]
        rfl

theorem hasType_of_carrier {children : List Node} {v : Value E U}
    (isOp : operation k (Node.apply k children).type = some m) (notConcat : k ≠ .bitvectorConcat)
    (mem : m.carrier v)
    : v.HasType (Node.apply k children).type := by
  generalize isType : (Node.apply k children).type = tn at isOp
  cases k with
  | bitvectorConcat => exact absurd rfl notConcat
  | or | and | regexpUnion | regexpInter | regexpConcat =>
      cases isOp
      cases isType
      exact mem
  | bitvectorAnd | bitvectorOr | bitvectorXor | stringConcat =>
      cases tn <;> simp only [operation, reduceCtorEq, Option.some.injEq] at isOp
      subst isOp
      exact mem

mutual

theorem eval_hasType (n : Node) (wellTyped : WellTyped n) : (I.eval n).HasType n.type := by
  cases n with
  | leaf symbol =>
      cases symbol with
      | other name type => exact I.hasType _
      | constBool | constBitVector | emptyWord | emptyWordToRegexp | regexpNone | regexpAll | bvEmpty =>
          simp [Interpretation.eval, Interpretation.evalLeaf, Node.type, Leaf.type, Value.HasType]
  | apply k children =>
      have childTypes := evals_hasType children (by rw [WellTyped] at wellTyped; exact wellTyped.1)
      rw [Interpretation.eval]
      split
      · next m isOp =>
          have hasNull := operation_isSome_iff.mp (Option.isSome_of_eq_some isOp)
          have fits := wellTyped_apply wellTyped hasNull
          have all : m.All (I.evals children) := by
            rw [Interpretation.evals_eq_map]
            rintro _ isValue
            obtain ⟨n, member, rfl⟩ := List.mem_map.mp isValue
            exact carrier_of_hasType isOp (fits n member).2 (childTypes n member)
          by_cases isConcat : k = .bitvectorConcat
          · subst isConcat
            cases isOp
            rw [Interpretation.evals_eq_map, Node.type, types_eq_map]
            exact concat_hasType I (fun n member => ⟨(fits n member).2, childTypes n member⟩)
          · exact hasType_of_carrier isOp isConcat (MonoidOn.product_mem all)
      · exact I.hasType _

theorem evals_hasType (nodes : List Node) (wellTyped : AllWellTyped nodes)
    : ∀ n ∈ nodes, (I.eval n).HasType n.type := by
  cases nodes with
  | nil => exact nofun
  | cons node rest =>
      rw [AllWellTyped] at wellTyped
      exact List.forall_mem_cons.mpr
        ⟨eval_hasType node wellTyped.1, evals_hasType rest wellTyped.2⟩

end

theorem carrier_of_fits {n : Node} (isOp : operation k tn = some m) (fits : Fits k tn n)
    : m.carrier (I.eval n) :=
  carrier_of_hasType isOp fits.2 (eval_hasType I n fits.1)

theorem all_of_fits {nodes : List Node} (isOp : operation k tn = some m)
    (fits : ∀ n ∈ nodes, Fits k tn n)
    : m.All (nodes.map I.eval) := by
  rintro _ isValue
  obtain ⟨n, member, rfl⟩ := List.mem_map.mp isValue
  exact carrier_of_fits I isOp (fits n member)

end Ava6.Expr.Aci
