import Mathlib

/-! Nodes of the theory of arrays with their types and their meaning. A term of another theory is opaque; the
values of an array sort are all functions from the index sort to the element sort.
-/

namespace Ava6.Arrays

inductive TypeNode
  | bool
  | sort (name : Nat)
  | array (index element : TypeNode)
  deriving DecidableEq

inductive Node
  | constBoolean (value : Bool)
  | constant (sort name : Nat)
  | term (type : TypeNode) (name : Nat)
  | storeAll (indexType : TypeNode) (value : Node)
  | select (array index : Node)
  | store (array index value : Node)
  | equal (left right : Node)

/-- `getType(check = true)`; nothing for an ill-sorted node. -/
def Node.getType : Node → Option TypeNode
  | .constBoolean _ => some .bool
  | .constant sort _ => some (.sort sort)
  | .term type _ => some type
  | .storeAll indexType value => value.getType.map (.array indexType)
  | .select array index =>
      match array.getType, index.getType with
      | some (.array i e), some t => if t = i then some e else none
      | _, _ => none
  | .store array index value =>
      match array.getType, index.getType, value.getType with
      | some (.array i e), some t, some s => if t = i ∧ s = e then some (.array i e) else none
      | _, _, _ => none
  | .equal left right =>
      match left.getType, right.getType with
      | some t, some s => if t = s then some .bool else none
      | _, _ => none

attribute [local simp] Node.getType

/-- The values of a type over carriers of the sorts. -/
def Domain (carrier : Nat → Type) : TypeNode → Type
  | .bool => Prop
  | .sort name => carrier name
  | .array index element => Domain carrier index → Domain carrier element

structure Interpretation where
  carrier : Nat → Type
  constant : (sort name : Nat) → carrier sort
  term : (type : TypeNode) → Nat → Domain carrier type

/-- A value with its type. -/
structure Value (carrier : Nat → Type) where
  type : TypeNode
  value : Domain carrier type

namespace Value

variable {carrier : Nat → Type}

/-- The value of an ill-sorted node. -/
def undefined : Value carrier := ⟨.bool, False⟩

def ofFunction {index element : TypeNode} (f : Domain carrier index → Domain carrier element)
    : Value carrier :=
  ⟨.array index element, f⟩

def select (array index : Value carrier) : Value carrier :=
  match array with
  | ⟨.array i e, f⟩ => if typed : index.type = i then ⟨e, f (typed ▸ index.value)⟩ else undefined
  | _ => undefined

open scoped Classical in
noncomputable def store (array index value : Value carrier) : Value carrier :=
  match array with
  | ⟨.array i e, f⟩ =>
      if typed : index.type = i ∧ value.type = e then
        ofFunction (Function.update (β := fun _ => Domain carrier e) f (typed.1 ▸ index.value)
          (typed.2 ▸ value.value))
      else undefined
  | _ => undefined

def storeAll (indexType : TypeNode) (value : Value carrier) : Value carrier :=
  ofFunction (fun _ : Domain carrier indexType => value.value)

/-- The array can be read at the index and can store the value. -/
def Fits (array index value : Value carrier) : Prop := array.type = .array index.type value.type

section Functions

open scoped Classical

theorem select_ofFunction {i e : TypeNode} (f : Domain carrier i → Domain carrier e) (x : Domain carrier i)
    : (ofFunction f).select ⟨i, x⟩ = ⟨e, f x⟩ := by
  unfold select ofFunction
  dsimp only
  rw [dif_pos rfl]

theorem store_ofFunction {i e : TypeNode} (f : Domain carrier i → Domain carrier e) (x : Domain carrier i)
    (v : Domain carrier e)
    : (ofFunction f).store ⟨i, x⟩ ⟨e, v⟩ = ofFunction (Function.update f x v) := by
  unfold store ofFunction
  dsimp only
  rw [dif_pos ⟨rfl, rfl⟩]

variable {a b x y v w : Value carrier}

/-- An array that fits is a function. -/
theorem Fits.exists_function (fits : a.Fits x v)
    : ∃ (i e : TypeNode) (f : Domain carrier i → Domain carrier e) (x' : Domain carrier i) (v' : Domain carrier e),
        a = ofFunction f ∧ x = ⟨i, x'⟩ ∧ v = ⟨e, v'⟩ := by
  obtain ⟨_, f⟩ := a
  obtain rfl := fits
  exact ⟨x.type, v.type, f, x.value, v.value, rfl, rfl, rfl⟩

/-- Two pairs of an index and a value that fit have the same types. -/
theorem Fits.types (fits : a.Fits x v) (fits' : a.Fits y w) : x.type = y.type ∧ v.type = w.type := by
  have same : TypeNode.array x.type v.type = .array y.type w.type := fits.symm.trans fits'
  exact TypeNode.array.inj same

theorem type_store (fits : a.Fits x v) : (a.store x v).type = a.type := by
  obtain ⟨i, e, f, x, v, rfl, rfl, rfl⟩ := fits.exists_function
  rw [store_ofFunction]
  rfl

/-- Reading what was written. -/
theorem select_store_self (fits : a.Fits x v) : (a.store x v).select x = v := by
  obtain ⟨i, e, f, x, v, rfl, rfl, rfl⟩ := fits.exists_function
  rw [store_ofFunction, select_ofFunction, Function.update_self]

theorem select_store_of_ne (fits : a.Fits x v) (sameType : x.type = y.type) (differ : x ≠ y)
    : (a.store x v).select y = a.select y := by
  obtain ⟨i, e, f, x, v, rfl, rfl, rfl⟩ := fits.exists_function
  obtain ⟨t, y⟩ := y
  obtain rfl : i = t := sameType
  have differ' : y ≠ x := fun same => differ (by rw [same])
  rw [store_ofFunction, select_ofFunction, select_ofFunction, Function.update_of_ne differ']

theorem store_store_self (fits : a.Fits x v) (fits' : a.Fits x w)
    : (a.store x v).store x w = a.store x w := by
  obtain ⟨-, sameElement⟩ := fits.types fits'
  obtain ⟨i, e, f, x, v, rfl, rfl, rfl⟩ := fits.exists_function
  obtain ⟨s, w⟩ := w
  obtain rfl : e = s := sameElement
  rw [store_ofFunction, store_ofFunction, store_ofFunction, Function.update_idem]

theorem store_comm (fits : a.Fits x v) (fits' : a.Fits y w) (differ : x ≠ y)
    : (a.store x v).store y w = (a.store y w).store x v := by
  obtain ⟨sameIndex, sameElement⟩ := fits.types fits'
  obtain ⟨i, e, f, x, v, rfl, rfl, rfl⟩ := fits.exists_function
  obtain ⟨t, y⟩ := y
  obtain ⟨s, w⟩ := w
  obtain rfl : i = t := sameIndex
  obtain rfl : e = s := sameElement
  have differ' : x ≠ y := fun same => differ (by rw [same])
  rw [store_ofFunction, store_ofFunction, store_ofFunction, store_ofFunction, Function.update_comm differ']

/-- Writing what is there already. -/
theorem store_select_self (fits : a.Fits x v) : a.store x (a.select x) = a := by
  obtain ⟨i, e, f, x, v, rfl, rfl, rfl⟩ := fits.exists_function
  rw [select_ofFunction, store_ofFunction, Function.update_eq_self]

theorem select_storeAll (x : Value carrier) : (storeAll x.type v).select x = v :=
  select_ofFunction (fun _ => v.value) x.value

/-- Arrays are equal if they are equal at each index. -/
theorem ext_select {index element : TypeNode} (isArray : a.type = .array index element)
    (sameType : b.type = a.type) (same : ∀ x : Value carrier, x.type = index → a.select x = b.select x)
    : a = b := by
  obtain ⟨_, f⟩ := a
  obtain ⟨_, g⟩ := b
  obtain rfl := isArray
  obtain rfl := sameType
  have sameFunction : (f : Domain carrier index → Domain carrier element) = g := by
    funext x
    have atX := (select_ofFunction f x).symm.trans ((same ⟨index, x⟩ rfl).trans (select_ofFunction g x))
    exact eq_of_heq (Value.mk.inj atX).2
  exact congrArg ofFunction sameFunction

end Functions

end Value

noncomputable def Node.eval (I : Interpretation) : Node → Value I.carrier
  | .constBoolean value => ⟨.bool, value = true⟩
  | .constant sort name => ⟨.sort sort, I.constant sort name⟩
  | .term type name => ⟨type, I.term type name⟩
  | .storeAll indexType value => .storeAll indexType (value.eval I)
  | .select array index => (array.eval I).select (index.eval I)
  | .store array index value => (array.eval I).store (index.eval I) (value.eval I)
  | .equal left right => ⟨.bool, left.eval I = right.eval I⟩

namespace Node

variable {a i v n m : Node} {t : TypeNode}

theorem getType_select_iff
    : (select a i).getType = some t
      ↔ ∃ index, a.getType = some (.array index t) ∧ i.getType = some index := by
  rw [getType]
  constructor
  · intro typed
    split at typed
    · next index _ _ arrayType indexType =>
        split at typed
        · next same =>
            obtain rfl := Option.some.inj typed
            exact ⟨index, arrayType, same ▸ indexType⟩
        · cases typed
    · cases typed
  · rintro ⟨index, arrayType, indexType⟩
    rw [arrayType, indexType]
    exact if_pos rfl

theorem getType_store_iff
    : (store a i v).getType = some t
      ↔ ∃ index element, t = .array index element ∧ a.getType = some (.array index element)
          ∧ i.getType = some index ∧ v.getType = some element := by
  rw [getType]
  constructor
  · intro typed
    split at typed
    · next index element _ _ arrayType indexType valueType =>
        split at typed
        · next same =>
            obtain rfl := Option.some.inj typed
            exact ⟨index, element, rfl, arrayType, same.1 ▸ indexType, same.2 ▸ valueType⟩
        · cases typed
    · cases typed
  · rintro ⟨index, element, rfl, arrayType, indexType, valueType⟩
    rw [arrayType, indexType, valueType]
    exact if_pos ⟨rfl, rfl⟩

theorem getType_storeAll_iff {index : TypeNode}
    : (storeAll index v).getType = some t ↔ ∃ element, t = .array index element ∧ v.getType = some element := by
  rw [getType, Option.map_eq_some_iff]
  constructor
  · rintro ⟨element, valueType, rfl⟩
    exact ⟨element, rfl, valueType⟩
  · rintro ⟨element, rfl, valueType⟩
    exact ⟨element, valueType, rfl⟩

theorem getType_equal_iff
    : (equal n m).getType = some t ↔ t = .bool ∧ ∃ side, n.getType = some side ∧ m.getType = some side := by
  rw [getType]
  constructor
  · intro typed
    split at typed
    · next leftType rightType =>
        split at typed
        · next same =>
            obtain rfl := Option.some.inj typed
            exact ⟨rfl, _, leftType, same ▸ rightType⟩
        · cases typed
    · cases typed
  · rintro ⟨rfl, side, leftType, rightType⟩
    rw [leftType, rightType]
    exact if_pos rfl

/-- The value of a well-sorted node is of its type. -/
theorem type_eval (I : Interpretation) (typed : n.getType = some t) : (n.eval I).type = t := by
  induction n generalizing t with
  | constBoolean _ | constant _ _ | term _ _ => exact Option.some.inj typed
  | storeAll index v ih =>
      obtain ⟨element, rfl, valueType⟩ := getType_storeAll_iff.mp typed
      have sameElement := ih valueType
      exact congrArg (TypeNode.array index) sameElement
  | select a i ihA ihI =>
      obtain ⟨index, arrayType, indexType⟩ := getType_select_iff.mp typed
      have isArray := ihA arrayType
      have isIndex := ihI indexType
      rw [eval]
      generalize a.eval I = array at isArray
      generalize i.eval I = x at isIndex
      obtain ⟨_, f⟩ := array
      obtain rfl := isArray
      obtain ⟨s, x⟩ := x
      obtain rfl : s = index := isIndex
      exact congrArg Value.type (Value.select_ofFunction f x)
  | store a i v ihA ihI ihV =>
      obtain ⟨index, element, rfl, arrayType, indexType, valueType⟩ := getType_store_iff.mp typed
      have fits : (a.eval I).Fits (i.eval I) (v.eval I) := by
        rw [Value.Fits, ihA arrayType, ihI indexType, ihV valueType]
      rw [eval, Value.type_store fits, ihA arrayType]
  | equal n m _ _ =>
      obtain ⟨rfl, -⟩ := getType_equal_iff.mp typed
      rfl

theorem fits_of_store (I : Interpretation) (typed : (store a i v).getType = some t)
    : (a.eval I).Fits (i.eval I) (v.eval I) := by
  obtain ⟨index, element, -, arrayType, indexType, valueType⟩ := getType_store_iff.mp typed
  rw [Value.Fits, type_eval I arrayType, type_eval I indexType, type_eval I valueType]

end Node

end Ava6.Arrays
