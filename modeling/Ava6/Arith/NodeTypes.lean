import Mathlib.Algebra.BigOperators.Ring.Finset
import Mathlib.Algebra.BigOperators.Ring.List
import Mathlib.Tactic.Positivity
import Ava6.Arith.Node

/-! What the types of nodes say: of an application about those of its children, and of a node about its value. -/

namespace Ava6.Arith

section Children

variable {α β : Type*} {R : α → β → Prop} {nodes : List α} {types : List β}

theorem forall₂_pair {a b : β} (typed : List.Forall₂ R nodes [a, b]) : ∃ x y, nodes = [x, y] ∧ R x a ∧ R y b := by
  obtain ⟨x, rest, first, typedRest, rfl⟩ := List.forall₂_cons_right_iff.mp typed
  obtain ⟨y, none, second, isNone, rfl⟩ := List.forall₂_cons_right_iff.mp typedRest
  cases isNone
  exact ⟨x, y, rfl, first, second⟩

theorem forall₂_single {a : β} (typed : List.Forall₂ R nodes [a]) : ∃ x, nodes = [x] ∧ R x a := by
  obtain ⟨x, none, first, isNone, rfl⟩ := List.forall₂_cons_right_iff.mp typed
  cases isNone
  exact ⟨x, rfl, first⟩

theorem forall₂_exists {n : α} (typed : List.Forall₂ R nodes types) (member : n ∈ nodes) : ∃ t ∈ types, R n t := by
  induction typed with
  | nil => cases member
  | cons first _ ih =>
      rcases List.mem_cons.mp member with isFirst | inRest
      · exact ⟨_, List.mem_cons_self, isFirst ▸ first⟩
      · obtain ⟨t, inTypes, related⟩ := ih inRest
        exact ⟨t, List.mem_cons_of_mem _ inTypes, related⟩

theorem forall₂_imp_mem {S : α → β → Prop} (typed : List.Forall₂ R nodes types) (imp : ∀ n ∈ nodes, ∀ t, R n t → S n t)
    : List.Forall₂ S nodes types := by
  induction typed with
  | nil => exact .nil
  | cons first _ ih =>
      exact .cons (imp _ List.mem_cons_self _ first) (ih (fun n member => imp n (List.mem_cons_of_mem _ member)))

theorem forall₂_map_eq {γ : Type*} {f g : α → γ} (same : List.Forall₂ (fun n _ => f n = g n) nodes types)
    : nodes.map f = nodes.map g := by
  induction same with
  | nil => rfl
  | cons first _ ih => rw [List.map_cons, List.map_cons, first, ih]

end Children

theorem bitVectorType_eq_some {least : Nat} {types : List TypeNode} {t : TypeNode}
    (computed : bitVectorType least types = some t)
    : ∃ w, t = .bitVector w ∧ types ≠ [] ∧ ∀ s ∈ types, s = .bitVector w := by
  unfold bitVectorType at computed
  split at computed
  · next width rest =>
      split at computed
      · next same =>
          refine ⟨width, (Option.some.inj computed).symm, List.cons_ne_nil _ _, fun s member => ?_⟩
          rcases List.mem_cons.mp member with isFirst | inRest
          · exact isFirst
          · exact beq_iff_eq.mp (List.all_eq_true.mp same.2 s inRest)
      · cases computed
  · cases computed

@[simp]
theorem isSome_leastUpperBound {t s : TypeNode} : (t.leastUpperBound s).isSome = true ↔ t = s := by
  unfold TypeNode.leastUpperBound
  split
  · next same => exact iff_of_true rfl same
  · next differ => exact iff_of_false Bool.false_ne_true differ

def TypeNode.isNumeric (t : TypeNode) : Bool := t.isRealOrInt || t.isBitVector

/-- The sorts of integral value. -/
def TypeNode.isIntegral : TypeNode → Bool
  | .int | .bitVector _ => true
  | _ => false

/-- A type that the subterms of a term of a type have. -/
structure SubtermType (t s : TypeNode) : Prop where
  arith (isArith : t.isRealOrInt = true) : s.isRealOrInt = true
  integral (isIntegral : t.isIntegral = true) : s = t

theorem SubtermType.refl (t : TypeNode) : SubtermType t t := ⟨id, fun _ => rfl⟩

theorem SubtermType.trans {t s r : TypeNode} (first : SubtermType t s) (second : SubtermType s r)
    : SubtermType t r := by
  refine ⟨fun isArith => second.arith (first.arith isArith), fun isIntegral => ?_⟩
  obtain rfl := first.integral isIntegral
  exact second.integral isIntegral

theorem subtermType_real {s : TypeNode} (isArith : s.isRealOrInt = true) : SubtermType .real s :=
  ⟨fun _ => isArith, fun isIntegral => by cases isIntegral⟩

-- Values

theorem eval_of_getConst (I : Interpretation) {n : Node} {c : Rat} (isConstant : n.getConst = some c) : n.eval I = .num c := by
  cases n with
  | constInteger value =>
      obtain rfl := Option.some.inj isConstant
      rw [Node.eval, Rat.cast_intCast]
  | constRational value =>
      obtain rfl := Option.some.inj isConstant
      rw [Node.eval]
  | var _ _ | constBitvector _ _ | apply _ _ => cases isConstant

namespace Value

@[simp]
theorem width_ofInt (w : Nat) (z : Int) : (ofInt w z).width = w := rfl

@[simp]
theorem toInt_ofInt (w : Nat) (z : Int) : (ofInt w z).toInt = z % 2 ^ w :=
  Int.toNat_of_nonneg (Int.emod_nonneg z (pow_ne_zero w two_ne_zero))

theorem ofInt_eq_iff {w : Nat} {y z : Int} : ofInt w y = ofInt w z ↔ y % 2 ^ w = z % 2 ^ w := by
  constructor
  · intro same
    rw [← toInt_ofInt, same, toInt_ofInt]
  · intro same
    rw [ofInt, ofInt, same]

theorem ofInt_natCast {w v : Nat} (small : v < 2 ^ w) : ofInt w v = .bv w v := by
  have unchanged : (v : Int) % 2 ^ w = v := by
    refine Int.emod_eq_of_lt (Int.natCast_nonneg v) ?_
    exact_mod_cast small
  rw [ofInt, unchanged, Int.toNat_natCast]

theorem ofInt_sum (w : Nat) (zs : List Int) : ofInt w (zs.map (· % 2 ^ w)).sum = ofInt w zs.sum :=
  ofInt_eq_iff.mpr (List.sum_int_mod zs _).symm

theorem ofInt_prod (w : Nat) (zs : List Int) : ofInt w (zs.map (· % 2 ^ w)).prod = ofInt w zs.prod :=
  ofInt_eq_iff.mpr (List.prod_int_mod zs _).symm

end Value

def Value.default : TypeNode → Value
  | .bool => .bool True
  | .int | .real => .num 0
  | .bitVector w => .bv w 0
  | .other name => .elem name 0

theorem Value.default_hasType (t : TypeNode) : (Value.default t).HasType t := by
  cases t with
  | int => exact ⟨0, by simp⟩
  | _ => simp [Value.default, Value.HasType]

/-- The values of well-sorted children have the types of the children. -/
abbrev HaveTypes (values : List Value) (types : List TypeNode) : Prop := List.Forall₂ Value.HasType values types

theorem hasType_num_of_isRealOrInt {value : Value} {type : TypeNode} (arithmetic : type.isRealOrInt = true)
    (typed : value.HasType type)
    : value = .num value.toReal := by
  cases type <;> cases value <;> simp_all [TypeNode.isRealOrInt, Value.HasType, Value.toReal]

theorem Value.HasType.integral {value : Value} (typed : value.HasType .int) : ∃ z : Int, value.toReal = z := by
  cases value with
  | num value => exact typed
  | bool _ | bv _ _ | elem _ _ => cases typed

theorem hasType_num {x : ℝ} {type : TypeNode} (arithmetic : type.isRealOrInt = true)
    (integral : type = .int → ∃ z : Int, x = z)
    : (Value.num x).HasType type := by
  cases type with
  | int => exact integral rfl
  | real => exact trivial
  | bool | bitVector _ | other _ => cases arithmetic

theorem hasType_ofInt (w : Nat) (z : Int) : (Value.ofInt w z).HasType (.bitVector w) := by
  have positive : (0 : Int) < 2 ^ w := by positivity
  refine ⟨rfl, (Int.toNat_lt (Int.emod_nonneg z positive.ne')).mpr ?_⟩
  exact_mod_cast Int.emod_lt_of_pos z positive

variable {types : List TypeNode} {values : List Value} {k : Kind} {type : TypeNode}

/-- Sums and products of integers are integers. -/
theorem integral_of_all_int (typed : HaveTypes values types) (int : types.all (· == .int) = true)
    : (∃ z : Int, (values.map Value.toReal).sum = z) ∧ ∃ z : Int, (values.map Value.toReal).prod = z := by
  induction typed with
  | nil => exact ⟨⟨0, by simp⟩, ⟨1, by simp⟩⟩
  | @cons value type values types head _ ih =>
      simp only [List.all_cons, Bool.and_eq_true, beq_iff_eq] at int
      obtain ⟨⟨sum, isSum⟩, ⟨prod, isProd⟩⟩ := ih int.2
      obtain ⟨z, isInteger⟩ := Value.HasType.integral (int.1 ▸ head)
      exact ⟨⟨z + sum, by simp [isSum, isInteger]⟩, ⟨z * prod, by simp [isProd, isInteger]⟩⟩

theorem arith_of_all_int (types : List TypeNode)
    : (if types.all (· == .int) then TypeNode.int else .real).isRealOrInt = true := by
  split <;> rfl

theorem widthOf_of_hasType {w : Nat} (typed : HaveTypes values types) (nonempty : types ≠ [])
    (all : ∀ s ∈ types, s = .bitVector w)
    : widthOf values = w := by
  cases typed with
  | nil => exact absurd rfl nonempty
  | @cons value _ _ _ first _ =>
      rw [all _ List.mem_cons_self] at first
      cases value with
      | bv => exact first.1
      | num _ | bool _ | elem _ _ => cases first

/-- The kinds that give a truth value. -/
def Kind.isConnective : Kind → Bool
  | .equal | .lt | .leq | .gt | .geq | .distinct | .not | .and | .implies => true
  | _ => false

theorem computeType_eq_bool (connective : k.isConnective = true) (computed : k.computeType types = some type)
    : type = .bool := by
  unfold Kind.computeType at computed
  split at computed <;> simp_all [Kind.isConnective]

theorem isConnective_or_op (computed : k.computeType types = some .bool)
    : k.isConnective = true ∨ ∃ symbol, k = .op symbol .bool := by
  have notBitVector (least : Nat) (types : List TypeNode) : bitVectorType least types ≠ some .bool := fun isBool => by
    obtain ⟨w, isWidth, -⟩ := bitVectorType_eq_some isBool
    cases isWidth
  unfold Kind.computeType at computed
  split at computed <;> first
    | exact .inl rfl
    | exact absurd computed (notBitVector _ _)
    | exact .inr ⟨_, by rw [Option.some.inj computed]⟩
    | grind [TypeNode.isRealOrInt]

theorem apply_hasType_bool (I : Interpretation) (values : List Value) (connective : k.isConnective = true)
    : (k.apply I values).HasType .bool := by
  unfold Kind.apply
  split <;> first
    | exact trivial
    | cases connective

/-- The meaning of a kind has the type its type rule computes. -/
theorem computeType_sound (I : Interpretation) (typed : HaveTypes values types) (computed : k.computeType types = some type)
    : (k.apply I values).HasType type := by
  have ofBitVectors {least : Nat} (same : bitVectorType least types = some type) (z : Int)
      : (Value.ofInt (widthOf values) z).HasType type := by
    obtain ⟨w, rfl, nonempty, all⟩ := bitVectorType_eq_some same
    rw [widthOf_of_hasType typed nonempty all]
    exact hasType_ofInt w z
  cases k with
  | add =>
      simp only [Kind.computeType, Option.ite_none_right_eq_some, Option.some.injEq] at computed
      rw [← computed.2]
      refine hasType_num (arith_of_all_int types) (fun isInt => (integral_of_all_int typed ?_).1)
      simpa using isInt
  | mult | nonlinearMult =>
      simp only [Kind.computeType, Option.ite_none_right_eq_some, Option.some.injEq] at computed
      rw [← computed.2]
      refine hasType_num (arith_of_all_int types) (fun isInt => (integral_of_all_int typed ?_).2)
      simpa using isInt
  | sub =>
      match types with
      | [s, r] =>
          obtain ⟨a, b, rfl, first, second⟩ := forall₂_pair typed
          simp only [Kind.computeType, Option.ite_none_right_eq_some, Option.some.injEq] at computed
          obtain ⟨-, rfl⟩ := computed
          refine hasType_num (by split <;> rfl) (fun isInt => ?_)
          obtain ⟨rfl, rfl⟩ : s = .int ∧ r = .int := by simpa using isInt
          obtain ⟨z, isInteger⟩ := first.integral
          obtain ⟨z', isInteger'⟩ := second.integral
          exact ⟨z - z', by rw [isInteger, isInteger', Int.cast_sub]⟩
      | [] | [_] | _ :: _ :: _ :: _ => cases computed
  | neg =>
      match types with
      | [s] =>
          obtain ⟨a, rfl, first⟩ := forall₂_single typed
          simp only [Kind.computeType, Option.ite_none_right_eq_some, Option.some.injEq] at computed
          obtain ⟨arithmetic, rfl⟩ := computed
          refine hasType_num arithmetic (fun isInt => ?_)
          obtain ⟨z, isInteger⟩ := (isInt ▸ first).integral
          exact ⟨-z, by rw [isInteger, Int.cast_neg]⟩
      | [] | _ :: _ :: _ => cases computed
  | toReal =>
      match types with
      | [_] =>
          obtain ⟨a, rfl, -⟩ := forall₂_single typed
          simp only [Kind.computeType, Option.ite_none_right_eq_some, Option.some.injEq] at computed
          obtain ⟨-, rfl⟩ := computed
          exact trivial
      | [] | _ :: _ :: _ => cases computed
  | division | divisionTotal =>
      match types with
      | [_, _] =>
          obtain ⟨a, b, rfl, -, -⟩ := forall₂_pair typed
          simp only [Kind.computeType, Option.ite_none_right_eq_some, Option.some.injEq] at computed
          obtain ⟨-, rfl⟩ := computed
          exact trivial
      | [] | [_] | _ :: _ :: _ :: _ => cases computed
  | bitvectorAdd | bitvectorMult => exact ofBitVectors computed _
  | bitvectorSub =>
      match types with
      | [_, _] =>
          obtain ⟨a, b, rfl, -, -⟩ := forall₂_pair typed
          exact ofBitVectors computed _
      | [] | [_] | _ :: _ :: _ :: _ => cases computed
  | bitvectorNeg =>
      match types with
      | [_] =>
          obtain ⟨a, rfl, -⟩ := forall₂_single typed
          exact ofBitVectors computed _
      | [] | _ :: _ :: _ => cases computed
  | op symbol range =>
      obtain rfl := Option.some.inj computed
      exact I.op_hasType symbol range values
  | equal | lt | leq | gt | geq | distinct | not | and | implies =>
      rw [computeType_eq_bool rfl computed]
      exact apply_hasType_bool I values rfl
  | var | constInteger | constRational | constBitvector => cases computed

/-- The meaning of a well-sorted node is a value of its sort. -/
theorem Node.getType_sound (I : Interpretation) (n : Node) {type : TypeNode} (typed : n.getType = some type)
    : (n.eval I).HasType type := by
  induction n using Node.induction generalizing type with
  | var type name =>
      obtain rfl := Option.some.inj typed
      exact I.var_hasType type name
  | constInteger value =>
      obtain rfl := Option.some.inj typed
      exact ⟨value, rfl⟩
  | constRational value =>
      obtain rfl := Option.some.inj typed
      exact trivial
  | constBitvector width value =>
      obtain rfl := Option.some.inj typed
      exact ⟨rfl, value.isLt⟩
  | apply k children ih =>
      obtain ⟨types, ofChildren, computed⟩ := Node.getType_apply typed
      rw [Node.eval, Nodes.eval_toList]
      refine computeType_sound I (List.forall₂_map_left_iff.mpr ?_) computed
      exact forall₂_imp_mem ofChildren (fun n member t typed => ih n member typed)

end Ava6.Arith
