import Ava6.Quantifiers.BvInverterLiterals

/-! Which literals with at most one operator the inverter solves: by the relation and its polarity, the side of the
variable and the operator above it. Every literal of a handled shape is solved, and every other shape has a literal that
is not.
-/

namespace Ava6.Quantifiers.BvInverter

open Ava6.Bv Ava6.Library.BitVecOrder

variable {n : Nat}

/-- A literal up to its other terms. -/
structure Shape where
  pol : Bool
  litk : LitKind
  operator : Option Operator

def Shape.Handled (width : Nat) (shape : Shape) : Prop :=
  ∀ op, shape.operator = some op → BvInverter.Handled width shape.pol shape.litk op

/-- The shape of a relation on a path over at most one operator. -/
def relationShape (pol : Bool) (k : Relation) (a b : Term n) : List Nat → Option Shape
  | [index] => (litKind k index).map (fun litk => ⟨pol, litk, none⟩)
  | [index, _] =>
      (litKind k index).bind fun litk =>
        (operatorOf (if index = 0 then a else b)).map (fun op => ⟨pol, litk, some op⟩)
  | _ => none

def shapeOf : Formula → List Nat → Option Shape
  | .not (.rel k a b), 0 :: path => relationShape false k a b path
  | .rel k a b, path => relationShape true k a b path
  | _, _ => none

/-- The path leads from a relation to the variable. -/
def relationLeads (sv : Variable) (a b : Term n) : List Nat → Prop
  | index :: path => index < 2 ∧ leadsTo sv (if index = 0 then a else b) path
  | [] => False

def literalLeads (sv : Variable) : Formula → List Nat → Prop
  | .not (.rel _ a b), 0 :: path => relationLeads sv a b path
  | .rel _ a b, path => relationLeads sv a b path
  | _, _ => False

-- Handled shapes

theorem solves_congr {slv : Nat} {sv : Variable} {p q : Valuation → Prop} (same : ∀ v, p v ↔ q v)
    {outcome : Outcome sv.width} (solves : outcome.Solves slv sv p)
    : outcome.Solves slv sv q := by
  cases outcome with
  | null => trivial
  | illSorted => exact solves
  | solved r witnesses =>
    intro v denotes solvable
    exact (same _).mp (solves v denotes (solvable.imp fun _ => (same _).mpr))

/-- A path of one index under the relation. -/
theorem solveFrom_variable {inv : Inverter} (faithful : inv.Faithful) {sv : Variable} {pol : Bool} {litk : LitKind}
    {sv_t t : Term n} (leads : leadsTo sv sv_t []) (absent : t.occurrences sv = 0)
    (fresh : t.occurrences (inv.solveVariable sv.width sv.positive) = 0)
    : (inv.solveFrom sv [] pol litk sv_t t []).Solves inv.slv sv (LiteralHolds pol litk sv_t t) := by
  obtain ⟨width, rfl⟩ := eq_of_isVariable leads
  subst width
  have literalAt (v : Valuation) (y : BitVec sv.width)
      : LiteralHolds pol litk (sv.term.cast rfl) t (v.update sv y) ↔ litk.relation.holds y (t.eval v) = pol := by
    rw [LiteralHolds, Term.eval_update v sv y t absent]
    rw [show (sv.term.cast rfl).eval (v.update sv y) = y from eval_update_term v sv y]
  refine solveVariableLit_solves faithful sv fresh (fun v => ?_) (fun v u _ holds => (literalAt v u).mpr holds)
  exact Exists.imp fun y => (literalAt v y).mp

/-- An ill-sorted condition is built for shapes only that are not handled. -/
theorem step_illSorted {slv index w : Nat} {positive : 0 < w} {name : Nat} {pol : Bool} {litk : LitKind} {sv_t t : Term n}
    {op : Operator} (at_index : childAt sv_t index = some ⟨w, .var positive name⟩) (isOp : operatorOf sv_t = some op)
    (taken : step slv pol litk index sv_t t = .illSorted)
    : ¬BvInverter.Handled w pol litk op := by
  have generic {x child s : Term n} : genericStep pol litk x child s ≠ .illSorted := by
    unfold genericStep
    rw [dif_pos rfl]
    split <;> nofun
  intro handled
  cases sv_t with
  | unary kind a =>
    simp only [step] at taken
    split at taken
    · cases taken
    · exact generic taken
  | nary kind first rest =>
    simp only [step] at taken
    split at taken
    · cases taken
    · cases kind with
      | and => cases taken
      | or => cases taken
      | mult =>
        simp only at taken
        split at taken <;> cases taken
      | _ =>
        simp only at taken
        split at taken
        · cases taken
        · exact generic taken
  | binary kind a b => cases kind <;> cases taken
  | flag kind a b =>
    cases kind with
    | comp =>
      obtain rfl := Option.some.inj isOp
      obtain ⟨rfl, rfl⟩ : litk = .equal ∧ pol = true := handled
      simp only [step, if_true, genericStep] at taken
      split at taken
      · cases taken
      · cases taken
    | _ => cases isOp
  | concat parts =>
    simp only [step] at taken
    split at taken
    · cases taken
    · rename_i p _
      split at taken
      · cases p <;> cases taken
      · split at taken <;> cases taken
  | signExtend amount a =>
    obtain rfl := Option.some.inj isOp
    simp only [step] at taken
    split at taken
    · rename_i missing
      have some := (getICBvSext_isSome pol litk (.var a.positive slv) t).mpr handled
      rw [missing] at some
      cases some
    · cases taken
  | _ => cases taken

/-- A path of one operator under the relation. -/
theorem solveFrom_operator {inv : Inverter} (faithful : inv.Faithful) {sv : Variable} {pol : Bool} {litk : LitKind}
    {sv_t t : Term n} {index : Nat} {op : Operator} (leads : leadsTo sv sv_t [index])
    (isOp : operatorOf sv_t = some op) (handled : BvInverter.Handled sv.width pol litk op)
    (once : sv_t.occurrences sv = 1 ∧ t.occurrences sv = 0)
    (fresh : sv_t.occurrences (inv.solveVariable sv.width sv.positive) = 0
      ∧ t.occurrences (inv.solveVariable sv.width sv.positive) = 0)
    : (inv.solveFrom sv [index] pol litk sv_t t []).Solves inv.slv sv (LiteralHolds pol litk sv_t t) := by
  obtain ⟨⟨k, a⟩, at_index, isVariable⟩ := leads
  obtain ⟨w, positive, name⟩ := sv
  obtain ⟨width, isTerm⟩ : ∃ width : w = k, a = (Term.var positive name).cast width := eq_of_isVariable isVariable
  subst width
  obtain rfl : a = .var positive name := isTerm
  rw [Inverter.solveFrom]
  cases taken : step inv.slv pol litk index sv_t t with
  | null => trivial
  | illSorted => exact absurd handled (step_illSorted at_index isOp taken)
  | inverted child t' =>
    cases step_next at_index (congrArg Step.next taken)
    obtain ⟨rfl, counts⟩ := step_inverted_occurrences taken
    have childOnce : (Term.var positive name).occurrences ⟨w, positive, name⟩ = 1 := by simp [Term.occurrences]
    have counted := counts ⟨w, positive, name⟩
    have countedSlv := counts ⟨w, positive, inv.slv⟩
    have freshBoth : sv_t.occurrences ⟨w, positive, inv.slv⟩ = 0 ∧ t.occurrences ⟨w, positive, inv.slv⟩ = 0 := fresh
    have forward (v : Valuation) (y : BitVec w) (same : sv_t.eval (v.update ⟨w, positive, name⟩ y)
        = t.eval (v.update ⟨w, positive, name⟩ y)) : y = t'.eval v := by
      have solution := step_inverted_forward taken _ same
      rw [Term.eval_update v ⟨w, positive, name⟩ y t' (by omega)] at solution
      rw [← solution]
      exact (update_self v ⟨w, positive, name⟩ y).symm
    have freshSlice : t'.occurrences ⟨w, positive, inv.slv⟩ = 0 := by omega
    refine solveVariableLit_solves faithful ⟨w, positive, name⟩ freshSlice (fun v solvable => ?_)
      (fun v u solvable holds => ?_)
    · cases pol with
      | true => exact ⟨_, beq_self_eq_true (t'.eval v)⟩
      | false =>
        obtain ⟨y, differs⟩ := exists_ne_value positive (t'.eval v)
        exact ⟨y, beq_false_of_ne differs⟩
    · cases pol with
      | true =>
        obtain ⟨y, solution⟩ := solvable
        have isSlice := forward v y (eq_of_beq solution)
        have isU : u = t'.eval v := eq_of_beq holds
        rwa [isU, ← isSlice]
      | false =>
        refine beq_false_of_ne fun same => ?_
        exact (beq_eq_false_iff_ne.mp holds) (forward v u same)
  | condition child ic =>
    cases step_next at_index (congrArg Step.next taken)
    have solving := step_condition_solving at_index taken isOp handled once fresh
    have asked : inv.Asks (inv.solveVariable w positive) ic := .operator taken fresh
    have unsolved := step_condition_unsolved taken (inv.solveVariable w positive)
    simp only
    split
    · trivial
    · rename_i r witnesses built
      have ended : inv.solveFrom ⟨w, positive, name⟩ [] true .equal (.var positive name) r witnesses
          = .solved r witnesses := by
        rw [Inverter.solveFrom, Inverter.solveVariableLit, dif_pos rfl]
        rfl
      rw [ended]
      exact inversion_solves faithful ⟨w, positive, name⟩ asked unsolved built solving

theorem occurrences_childAt (x : Variable) {curr : Term n} {i : Nat} {child : Σ k : Nat, Term k}
    (at_i : childAt curr i = some child)
    : child.2.occurrences x ≤ curr.occurrences x := by
  cases curr with
  | unary kind a =>
    obtain _ | i := i
    · cases Option.some.inj at_i
      exact Nat.le_refl _
    · cases at_i
  | binary kind a b =>
    obtain _ | _ | i := i
    · cases Option.some.inj at_i
      exact Nat.le_add_right _ _
    · cases Option.some.inj at_i
      exact Nat.le_add_left _ _
    · cases at_i
  | nary kind first rest =>
    obtain _ | i := i
    · cases Option.some.inj at_i
      exact Nat.le_add_right _ _
    · obtain ⟨taken, takes, rfl⟩ := Option.map_eq_some_iff.mp at_i
      have counts := occurrences_takeArg x rest i taken takes
      exact Nat.le_trans (Nat.le.intro counts.symm) (Nat.le_add_left _ _)
  | flag kind a b =>
    obtain _ | _ | i := i
    · cases Option.some.inj at_i
      exact Nat.le_add_right _ _
    · cases Option.some.inj at_i
      exact Nat.le_add_left _ _
    · cases at_i
  | concat parts =>
    obtain ⟨p, placed, rfl⟩ := Option.map_eq_some_iff.mp at_i
    exact Nat.le.intro (occurrences_replace x (fun k => 0#k) parts i p placed)
  | signExtend amount a =>
    obtain _ | i := i
    · cases Option.some.inj at_i
      exact Nat.le_refl _
    · cases at_i
  | _ => cases at_i

/-- A path to a variable ends at an occurrence of it. -/
theorem occurs_of_leadsTo (sv : Variable)
    : ∀ (path : List Nat) {n : Nat} (curr : Term n), leadsTo sv curr path → 0 < curr.occurrences sv
  | [], n, curr, leads => by
    obtain ⟨width, rfl⟩ := eq_of_isVariable leads
    rw [occurrences_cast]
    simp [Variable.term, Term.occurrences]
  | i :: path, n, curr, ⟨child, at_i, leads⟩ =>
    Nat.lt_of_lt_of_le (occurs_of_leadsTo sv path child.2 leads) (occurrences_childAt sv at_i)

/-- The literal of the loop is the relation, read from the side of the variable. -/
theorem literalHolds_iff {pol : Bool} {k : Relation} {litk : LitKind} {index : Nat} (a b : Term n) (side : index < 2)
    (isKind : litKind k index = some litk) (v : Valuation)
    : LiteralHolds pol litk (if index = 0 then a else b) (if index = 0 then b else a) v
      ↔ (Formula.rel k a b).eval v = pol := by
  obtain rfl | rfl : index = 0 ∨ index = 1 := by omega
  · cases k <;> cases isKind <;> simp [LiteralHolds, LitKind.relation]
  · cases k <;> cases isKind <;> simp [LiteralHolds, LitKind.relation, Bool.beq_comm (a := b.eval v)]

/-- A relation of a handled shape is solved. -/
theorem solveRelation_solves {inv : Inverter} (faithful : inv.Faithful) {sv : Variable} {pol : Bool} {k : Relation}
    {a b : Term n} {path : List Nat} {shape : Shape} (isShape : relationShape pol k a b path = some shape)
    (leads : relationLeads sv a b path) (once : a.occurrences sv + b.occurrences sv = 1)
    (fresh : a.occurrences (inv.solveVariable sv.width sv.positive)
      + b.occurrences (inv.solveVariable sv.width sv.positive) = 0) (handled : shape.Handled sv.width)
    : (inv.solveRelation sv pol k a b path).Solves inv.slv sv (fun v => (Formula.rel k a b).eval v = pol) := by
  cases path with
  | nil => cases leads
  | cons index path =>
    obtain ⟨side, leads⟩ := leads
    have noneIn (x : Variable) (total : a.occurrences x + b.occurrences x = 0)
        : (if index = 0 then a else b).occurrences x = 0 ∧ (if index = 0 then b else a).occurrences x = 0 := by
      split <;> omega
    have sum : (if index = 0 then a else b).occurrences sv + (if index = 0 then b else a).occurrences sv = 1 := by
      split <;> omega
    have occurs := occurs_of_leadsTo sv path _ leads
    cases path with
    | nil =>
      obtain ⟨litk, isKind, rfl⟩ := Option.map_eq_some_iff.mp isShape
      rw [Inverter.solveRelation, isKind]
      refine solves_congr (literalHolds_iff a b side isKind) ?_
      exact solveFrom_variable faithful leads (by omega) (noneIn _ fresh).2
    | cons i path =>
      cases path with
      | cons _ _ => cases isShape
      | nil =>
        obtain ⟨litk, isKind, isShape⟩ := Option.bind_eq_some_iff.mp isShape
        obtain ⟨op, isOp, rfl⟩ := Option.map_eq_some_iff.mp isShape
        rw [Inverter.solveRelation, isKind]
        refine solves_congr (literalHolds_iff a b side isKind) ?_
        exact solveFrom_operator faithful leads isOp (handled op rfl) ⟨by omega, by omega⟩ (noneIn _ fresh)

/-- A literal of a handled shape is solved. -/
theorem solveBvLit_solves {inv : Inverter} (faithful : inv.Faithful) {sv : Variable} {lit : Formula} {path : List Nat}
    {shape : Shape} (isShape : shapeOf lit path = some shape) (leads : literalLeads sv lit path)
    (once : lit.occurrences sv = 1) (fresh : lit.occurrences (inv.solveVariable sv.width sv.positive) = 0)
    (handled : shape.Handled sv.width)
    : (inv.solveBvLit sv lit path).Solves inv.slv sv (fun v => lit.eval v = true) := by
  unfold shapeOf at isShape
  split at isShape
  · refine solves_congr (fun v => ?_) (solveRelation_solves faithful isShape leads once fresh handled)
    simp
  · exact solveRelation_solves faithful isShape leads once fresh handled
  · cases isShape

-- Other shapes

/-- The literal of the loop as a formula. -/
def literalOf (pol : Bool) (litk : LitKind) (sv_t t : Term n) : Formula :=
  let lit :=
    match litk with
    | .equal => Formula.rel .equal sv_t t
    | .ult => .rel .ult sv_t t
    | .ugt => .rel .ult t sv_t
    | .slt => .rel .slt sv_t t
    | .sgt => .rel .slt t sv_t
  if pol then lit else .not lit

def pathOf (pol : Bool) (litk : LitKind) : List Nat :=
  let path := match litk with
    | .equal | .ult | .slt => [0, 0]
    | .ugt | .sgt => [1, 0]
  if pol then path else 0 :: path

/-- An inverter with a query and without a rewriter, whose names are not the one of the variable. -/
def plainInverter (sv : Variable) : Inverter where
  slv := sv.name + 1
  bound i := sv.name + 2 + i
  rewriter := none
  query := true

theorem plainInverter_faithful (sv : Variable) : (plainInverter sv).Faithful where
  meaning := nofun
  solved := nofun

section Failures
variable {sv : Variable} {pol : Bool} {litk : LitKind} {sv_t t : Term n} {op : Operator}

/-- Every literal of the shape is solved. -/
def ShapeSolved (sv : Variable) (shape : Shape) : Prop :=
  ∀ (inv : Inverter) (lit : Formula) (path : List Nat), inv.Faithful → shapeOf lit path = some shape →
    literalLeads sv lit path → lit.occurrences sv = 1 →
    lit.occurrences (inv.solveVariable sv.width sv.positive) = 0 →
    (inv.solveBvLit sv lit path).Solves inv.slv sv (fun v => lit.eval v = true)

/-- If every literal of the shape is solved, then so is this one. -/
theorem solveFrom_of_shapeSolved (solved : ShapeSolved sv ⟨pol, litk, some op⟩) (isOp : operatorOf sv_t = some op)
    (leads : leadsTo sv sv_t [0]) (once : sv_t.occurrences sv = 1 ∧ t.occurrences sv = 0)
    (fresh : sv_t.occurrences ⟨sv.width, sv.positive, sv.name + 1⟩ = 0
      ∧ t.occurrences ⟨sv.width, sv.positive, sv.name + 1⟩ = 0)
    : ((plainInverter sv).solveFrom sv [0] pol litk sv_t t []).Solves (sv.name + 1) sv (LiteralHolds pol litk sv_t t) := by
  have solves := solved (plainInverter sv) (literalOf pol litk sv_t t) (pathOf pol litk) (plainInverter_faithful sv)
  have shape : shapeOf (literalOf pol litk sv_t t) (pathOf pol litk) = some ⟨pol, litk, some op⟩ := by
    cases pol <;> cases litk <;> simp [literalOf, pathOf, shapeOf, relationShape, litKind, isOp]
  have path : literalLeads sv (literalOf pol litk sv_t t) (pathOf pol litk) := by
    cases pol <;> cases litk <;> exact ⟨by decide, leads⟩
  have counts (x : Variable)
      : (literalOf pol litk sv_t t).occurrences x = sv_t.occurrences x + t.occurrences x := by
    cases pol <;> cases litk <;> simp [literalOf, Formula.occurrences, Nat.add_comm]
  have same : (plainInverter sv).solveBvLit sv (literalOf pol litk sv_t t) (pathOf pol litk)
      = (plainInverter sv).solveFrom sv [0] pol litk sv_t t [] := by
    cases pol <;> cases litk <;> rfl
  rw [counts, counts, same] at solves
  refine solves_congr (fun v => ?_) (solves shape path (by omega) (Nat.add_eq_zero_iff.mpr fresh))
  cases pol <;> cases litk <;> simp [literalOf, LiteralHolds, LitKind.relation]

/-- The condition of the variable holds for its solutions. -/
theorem variableIC_holds {x : Term n} {ic : Formula} (built : variableIC pol litk x t = some ic) {v : Valuation}
    (holds : litk.relation.holds (x.eval v) (t.eval v) = pol)
    : ic.eval v = true := by
  cases litk <;> cases pol <;> cases built <;>
    simp_all [getICBvUltUgt, getICBvSltSgt, LitKind.relation]

/-- A value that the condition of the variable allows and that the operator maps outside. -/
theorem generic_fails {positive : 0 < n} {name : Nat} {ic : Formula} (f : BitVec n → BitVec n) {c e y : BitVec n}
    (value : ∀ v, sv_t.eval v = f (v n name)) (bound : ∀ v, t.eval v = c)
    (built : variableIC pol litk (.var positive (name + 1)) t = some ic)
    (taken : step (name + 1) pol litk 0 sv_t t = .condition (.var positive name) ic)
    (member : litk.relation.holds e c = pol) (escapes : litk.relation.holds (f e) c ≠ pol)
    (solution : litk.relation.holds (f y) c = pol)
    : ¬((plainInverter ⟨n, positive, name⟩).solveFrom ⟨n, positive, name⟩ [0] pol litk sv_t t []).Solves (name + 1)
        ⟨n, positive, name⟩ (LiteralHolds pol litk sv_t t) := by
  let x : Variable := ⟨n, positive, name + 2⟩
  have outcome : (plainInverter ⟨n, positive, name⟩).solveFrom ⟨n, positive, name⟩ [0] pol litk sv_t t []
      = .solved x.term [⟨x, ic⟩] := by
    have inverted : (plainInverter ⟨n, positive, name⟩).getInversionNode ic n positive [] = some (x.term, [⟨x, ic⟩]) := by
      rw [Inverter.getInversionNode]
      simp only [plainInverter, Option.getD_none, id_eq, variableIC_unsolved built]
      rfl
    rw [Inverter.solveFrom, show step (plainInverter ⟨n, positive, name⟩).slv pol litk 0 sv_t t = _ from taken]
    simp only [inverted]
    rw [Inverter.solveFrom, Inverter.solveVariableLit, dif_pos rfl]
    rfl
  rw [outcome]
  intro solves
  let v : Valuation := Valuation.update (fun k _ => 0#k) x e
  have literalAt (u : BitVec n) : LiteralHolds pol litk sv_t t (v.update ⟨n, positive, name⟩ u)
      ↔ litk.relation.holds (f u) c = pol := by
    rw [LiteralHolds, value, bound, show v.update ⟨n, positive, name⟩ u n name = u from
      update_self v ⟨n, positive, name⟩ u]
  have atX : v n (name + 2) = e := update_self _ x e
  refine escapes ((literalAt e).mp ?_)
  have final := solves v (fun w isWitness => ?_) ⟨y, (literalAt y).mpr solution⟩
  · rwa [show x.term.eval v = e from atX] at final
  · obtain rfl := List.mem_singleton.mp isWitness
    refine variableIC_holds built ?_
    rw [bound, show (Term.var positive (name + 1)).eval (v.update ⟨n, positive, name + 1⟩ (v n (name + 2))) = e from
      (update_self v ⟨n, positive, name + 1⟩ _).trans atX]
    exact member

/-- For some bound the orders have one solution only. -/
theorem exists_single (positive : 0 < n) (order : litk ≠ .equal)
    : ∃ c e : BitVec n, ∀ y, litk.relation.holds y c = pol ↔ y = e := by
  have double := two_pow_eq_double_half positive
  have half := Nat.two_pow_pos (n - 1)
  have low := toNat_minSigned positive
  have high := toNat_maxSigned positive
  have one := toNat_one positive
  have ones := @BitVec.toNat_allOnes n
  cases litk <;> cases pol
  case equal.true => exact absurd rfl order
  case equal.false => exact absurd rfl order
  case ult.true =>
    refine ⟨1#n, 0#n, fun y => ?_⟩
    change y.ult 1#n = true ↔ _
    rw [BitVec.ult_iff_toNat_lt, BitVec.toNat_eq, one]
    simp
  case ult.false =>
    refine ⟨BitVec.allOnes n, BitVec.allOnes n, fun y => ?_⟩
    have bound := y.isLt
    change y.ult _ = false ↔ _
    rw [ult_eq_false, BitVec.ule_iff_toNat_le, BitVec.toNat_eq, ones]
    omega
  case ugt.true =>
    refine ⟨BitVec.allOnes n - 1#n, BitVec.allOnes n, fun y => ?_⟩
    have bound := y.isLt
    have difference := toNat_sub_cases (BitVec.allOnes n) 1#n
    change BitVec.ult _ y = true ↔ _
    rw [BitVec.ult_iff_toNat_lt, BitVec.toNat_eq, ones]
    omega
  case ugt.false =>
    refine ⟨0#n, 0#n, fun y => ?_⟩
    change BitVec.ult _ y = false ↔ _
    rw [ult_eq_false, BitVec.ule_iff_toNat_le, BitVec.toNat_eq]
    simp
  case slt.true =>
    refine ⟨BitVec.twoPow n (n - 1) + 1#n, BitVec.twoPow n (n - 1), fun y => ?_⟩
    have bound := y.isLt
    have sum := toNat_add_cases (BitVec.twoPow n (n - 1)) 1#n
    change y.slt _ = true ↔ _
    rw [slt_iff positive, BitVec.toNat_eq]
    omega
  case slt.false =>
    refine ⟨~~~BitVec.twoPow n (n - 1), ~~~BitVec.twoPow n (n - 1), fun y => ?_⟩
    have bound := y.isLt
    change y.slt _ = false ↔ _
    rw [slt_eq_false, sle_iff positive, BitVec.toNat_eq]
    omega
  case sgt.true =>
    refine ⟨~~~BitVec.twoPow n (n - 1) - 1#n, ~~~BitVec.twoPow n (n - 1), fun y => ?_⟩
    have bound := y.isLt
    have difference := toNat_sub_cases (~~~BitVec.twoPow n (n - 1)) 1#n
    change BitVec.slt _ y = true ↔ _
    rw [slt_iff positive, BitVec.toNat_eq]
    omega
  case sgt.false =>
    refine ⟨BitVec.twoPow n (n - 1), BitVec.twoPow n (n - 1), fun y => ?_⟩
    have bound := y.isLt
    change BitVec.slt _ y = false ↔ _
    rw [slt_eq_false, sle_iff positive, BitVec.toNat_eq]
    omega

/-- Negation moves some solution of each order away, if there are two bits. -/
theorem exists_neg_escapes (several : 1 < n) (order : litk ≠ .equal)
    : ∃ c e : BitVec n, litk.relation.holds e c = pol ∧ litk.relation.holds (-e) c ≠ pol := by
  have positive : 0 < n := by omega
  have double := two_pow_eq_double_half positive
  have half : 2 ≤ 2 ^ (n - 1) := Nat.le_self_pow (by omega) 2
  have one := toNat_one positive
  have minusOne := toNat_neg_cases 1#n
  have back := toNat_neg_cases (-1#n)
  have two : (2#n).toNat = 2 := by
    rw [BitVec.toNat_ofNat]
    exact Nat.mod_eq_of_lt (by omega)
  have zero : (0#n).toNat = 0 := BitVec.toNat_ofNat 0 n
  cases litk <;> cases pol
  case equal.true => exact absurd rfl order
  case equal.false => exact absurd rfl order
  case ult.true =>
    refine ⟨2#n, 1#n, ?_⟩
    change BitVec.ult _ _ = true ∧ BitVec.ult _ _ ≠ true
    rw [ne_eq, BitVec.ult_iff_toNat_lt, BitVec.ult_iff_toNat_lt]
    omega
  case ult.false =>
    refine ⟨-1#n, -1#n, ?_⟩
    change BitVec.ult _ _ = false ∧ BitVec.ult _ _ ≠ false
    rw [ne_eq, ult_eq_false, ult_eq_false, BitVec.ule_iff_toNat_le, BitVec.ule_iff_toNat_le]
    omega
  case ugt.true =>
    refine ⟨2#n, -1#n, ?_⟩
    change BitVec.ult _ _ = true ∧ BitVec.ult _ _ ≠ true
    rw [ne_eq, BitVec.ult_iff_toNat_lt, BitVec.ult_iff_toNat_lt]
    omega
  case ugt.false =>
    refine ⟨1#n, 1#n, ?_⟩
    change BitVec.ult _ _ = false ∧ BitVec.ult _ _ ≠ false
    rw [ne_eq, ult_eq_false, ult_eq_false, BitVec.ule_iff_toNat_le, BitVec.ule_iff_toNat_le]
    omega
  case slt.true =>
    refine ⟨0#n, -1#n, ?_⟩
    change BitVec.slt _ _ = true ∧ BitVec.slt _ _ ≠ true
    rw [ne_eq, slt_iff positive, slt_iff positive]
    omega
  case slt.false =>
    refine ⟨1#n, 1#n, ?_⟩
    change BitVec.slt _ _ = false ∧ BitVec.slt _ _ ≠ false
    rw [ne_eq, slt_eq_false, slt_eq_false, sle_iff positive, sle_iff positive]
    omega
  case sgt.true =>
    refine ⟨0#n, 1#n, ?_⟩
    change BitVec.slt _ _ = true ∧ BitVec.slt _ _ ≠ true
    rw [ne_eq, slt_iff positive, slt_iff positive]
    omega
  case sgt.false =>
    refine ⟨-1#n, -1#n, ?_⟩
    change BitVec.slt _ _ = false ∧ BitVec.slt _ _ ≠ false
    rw [ne_eq, slt_eq_false, slt_eq_false, sle_iff positive, sle_iff positive]
    omega

/-- A fixed-point free permutation moves the only solution away. -/
theorem exists_escapes (positive : 0 < n) (order : litk ≠ .equal) {f : BitVec n → BitVec n} (noFixed : ∀ e, f e ≠ e)
    (onto : ∀ e, ∃ y, f y = e)
    : ∃ c e y : BitVec n, litk.relation.holds e c = pol ∧ litk.relation.holds (f e) c ≠ pol
        ∧ litk.relation.holds (f y) c = pol := by
  obtain ⟨c, e, single⟩ : ∃ c e : BitVec n, ∀ y, litk.relation.holds y c = pol ↔ y = e := exists_single positive order
  obtain ⟨y, maps⟩ := onto e
  exact ⟨c, e, y, (single e).mpr rfl, fun holds => noFixed e ((single _).mp holds), (single _).mpr maps⟩

/-- An operator over the variable with the same width, in the generic branch. -/
theorem not_shapeSolved_of_generic {positive : 0 < n} {name : Nat} (sv_t : Term n) (f : BitVec n → BitVec n)
    (isOp : operatorOf sv_t = some op) (at_zero : childAt sv_t 0 = some ⟨n, .var positive name⟩)
    (value : ∀ v, sv_t.eval v = f (v n name))
    (once : sv_t.occurrences ⟨n, positive, name⟩ = 1) (fresh : sv_t.occurrences ⟨n, positive, name + 1⟩ = 0)
    (generic : ∀ t, step (name + 1) pol litk 0 sv_t t
      = genericStep pol litk (.var positive (name + 1)) (.var positive name) t)
    (notEqual : litk ≠ .equal ∨ pol = false)
    (escapes : ∃ c e y : BitVec n, litk.relation.holds e c = pol ∧ litk.relation.holds (f e) c ≠ pol
      ∧ litk.relation.holds (f y) c = pol)
    : ¬ShapeSolved ⟨n, positive, name⟩ ⟨pol, litk, some op⟩ := by
  intro solved
  obtain ⟨c, e, y, member, outside, solution⟩ := escapes
  obtain ⟨ic, built⟩ : ∃ ic, variableIC pol litk (.var positive (name + 1)) (.const positive c) = some ic := by
    cases litk <;> cases pol <;> first | exact ⟨_, rfl⟩ | simp at notEqual
  have taken : step (name + 1) pol litk 0 sv_t (.const positive c) = .condition (.var positive name) ic := by
    rw [generic, genericStep, dif_pos rfl]
    simp only [Term.cast, built]
  refine generic_fails f value (fun _ => rfl) built taken member outside solution ?_
  refine solveFrom_of_shapeSolved solved isOp ⟨_, at_zero, ?_⟩ ⟨once, rfl⟩ ⟨fresh, rfl⟩
  simp [leadsTo, Term.isVariable]

/-- A literal for which an ill-sorted condition is built. -/
theorem not_shapeSolved_of_illSorted {positive : 0 < n} {name m : Nat} (sv_t t : Term m)
    (isOp : operatorOf sv_t = some op) (at_zero : childAt sv_t 0 = some ⟨n, .var positive name⟩)
    (once : sv_t.occurrences ⟨n, positive, name⟩ = 1 ∧ t.occurrences ⟨n, positive, name⟩ = 0)
    (fresh : sv_t.occurrences ⟨n, positive, name + 1⟩ = 0 ∧ t.occurrences ⟨n, positive, name + 1⟩ = 0)
    (taken : step (name + 1) pol litk 0 sv_t t = .illSorted)
    : ¬ShapeSolved ⟨n, positive, name⟩ ⟨pol, litk, some op⟩ := by
  intro solved
  have solves := solveFrom_of_shapeSolved solved isOp
    ⟨_, at_zero, by simp [leadsTo, Term.isVariable]⟩ once fresh
  rw [Inverter.solveFrom, show step (plainInverter ⟨n, positive, name⟩).slv pol litk 0 sv_t t = _ from taken] at solves
  exact solves

/-- The shapes that are not handled have literals that are not solved. -/
theorem not_shapeSolved {positive : 0 < n} {name : Nat} (unhandled : ¬BvInverter.Handled n pol litk op)
    : ¬ShapeSolved ⟨n, positive, name⟩ ⟨pol, litk, some op⟩ := by
  have once : (Term.var positive name).occurrences ⟨n, positive, name⟩ = 1 := by simp [Term.occurrences]
  have fresh : (Term.var positive name).occurrences ⟨n, positive, name + 1⟩ = 0 := by simp [Term.occurrences]
  have double := two_pow_eq_double_half positive
  have half := Nat.two_pow_pos (n - 1)
  have one : 1#n ≠ 0#n := by
    intro same
    have values := congrArg BitVec.toNat same
    rw [toNat_one positive] at values
    simp at values
  cases op with
  | unary kind =>
    cases kind with
    | not =>
      refine not_shapeSolved_of_generic (.unary .not (.var positive name)) (fun x => ~~~x) rfl rfl (fun _ => rfl) once
        fresh (fun t => if_neg unhandled) (Or.inl unhandled)
        (exists_escapes positive unhandled (fun e same => ?_) (fun e => ⟨~~~e, BitVec.not_not⟩))
      have values := congrArg BitVec.toNat same
      have bound := e.isLt
      rw [BitVec.toNat_not] at values
      omega
    | neg =>
      obtain ⟨order, wide⟩ := not_or.mp unhandled
      obtain ⟨c, e, member, outside⟩ : ∃ c e : BitVec n, litk.relation.holds e c = pol ∧ litk.relation.holds (-e) c ≠ pol :=
        exists_neg_escapes (by omega) order
      refine not_shapeSolved_of_generic (.unary .neg (.var positive name)) (fun x => -x) rfl rfl (fun _ => rfl) once fresh
        (fun t => if_neg order) (Or.inl order) ⟨c, e, -e, member, outside, ?_⟩
      rwa [BitVec.neg_neg]
  | nary kind =>
    have addOne (x : BitVec n) : x + 1#n ≠ x := by
      intro same
      have sum := toNat_add_cases x 1#n
      rw [same, toNat_one positive] at sum
      omega
    have flip (x : BitVec n) : x ^^^ 1#n ≠ x := by
      intro same
      have values := congrArg (x ^^^ ·) same
      rw [← BitVec.xor_assoc, BitVec.xor_self, BitVec.zero_xor] at values
      exact one values
    cases kind with
    | add =>
      exact not_shapeSolved_of_generic (mkNary .add (.var positive name) (.const positive 1#n)) (fun x => x + 1#n) rfl rfl
        (fun _ => rfl) (by simp [mkNary, Term.occurrences, Args.occurrences])
        (by simp [mkNary, Term.occurrences, Args.occurrences]) (fun t => if_neg unhandled) (Or.inl unhandled)
        (exists_escapes positive unhandled addOne (fun e => ⟨e - 1#n, BitVec.sub_add_cancel e 1#n⟩))
    | xor =>
      refine not_shapeSolved_of_generic (mkNary .xor (.var positive name) (.const positive 1#n)) (fun x => x ^^^ 1#n) rfl rfl
        (fun _ => rfl) (by simp [mkNary, Term.occurrences, Args.occurrences])
        (by simp [mkNary, Term.occurrences, Args.occurrences]) (fun t => if_neg unhandled) (Or.inl unhandled)
        (exists_escapes positive unhandled flip (fun e => ⟨e ^^^ 1#n, ?_⟩))
      rw [BitVec.xor_assoc, BitVec.xor_self, BitVec.xor_zero]
    | _ => exact absurd trivial unhandled
  | binary kind => exact absurd trivial unhandled
  | comp =>
    have notEqual : litk ≠ .equal ∨ pol = false := by
      by_contra both
      obtain ⟨equal, positivePol⟩ := not_or.mp both
      exact unhandled ⟨not_not.mp equal, by simpa using positivePol⟩
    by_cases bit : n = 1
    · subst bit
      refine not_shapeSolved_of_generic (.flag .comp (.var positive name) (.const positive 0#1))
        (fun x => BitVec.ofBool (x == 0#1)) rfl rfl (fun _ => rfl) (by simp [Term.occurrences]) (by simp [Term.occurrences])
        (fun t => rfl) notEqual ?_
      by_cases equal : litk = .equal
      · obtain rfl : pol = false := notEqual.resolve_left (not_not.mpr equal)
        subst equal
        exact ⟨0#1, 1#1, 0#1, by decide, by decide, by decide⟩
      · exact exists_escapes positive equal (by decide) (fun e => ⟨BitVec.ofBool (e == 0#1), by revert e; decide⟩)
    · refine not_shapeSolved_of_illSorted (.flag .comp (.var positive name) (.const positive 0#n))
        (.const Nat.one_pos 0#1) rfl rfl ⟨by simp [Term.occurrences], rfl⟩ ⟨by simp [Term.occurrences], rfl⟩ ?_
      change genericStep pol litk _ _ _ = .illSorted
      rw [genericStep, dif_neg (Ne.symm bit), if_neg]
      rintro ⟨equal, isTrue⟩
      exact unhandled ⟨equal, isTrue⟩
  | concat => exact absurd trivial unhandled
  | signExtend amount =>
    refine not_shapeSolved_of_illSorted (.signExtend amount (.var positive name))
      (.const (Nat.add_pos_left positive amount) 0#(n + amount)) rfl rfl ⟨once, rfl⟩ ⟨fresh, rfl⟩ ?_
    have missing : getICBvSext pol litk (.var positive (name + 1))
        (.const (Nat.add_pos_left positive amount) 0#(n + amount)) = none := by
      rw [← Option.not_isSome_iff_eq_none, getICBvSext_isSome]
      exact unhandled
    simp only [step, missing]

end Failures

/-- Every literal of a shape is solved exactly when the shape is handled. -/
theorem solveBvLit_solves_iff (sv : Variable) (shape : Shape)
    : (∀ (inv : Inverter) (lit : Formula) (path : List Nat), inv.Faithful → shapeOf lit path = some shape →
        literalLeads sv lit path → lit.occurrences sv = 1 →
        lit.occurrences (inv.solveVariable sv.width sv.positive) = 0 →
        (inv.solveBvLit sv lit path).Solves inv.slv sv (fun v => lit.eval v = true))
      ↔ shape.Handled sv.width := by
  refine ⟨fun solved op isOp => ?_, fun handled inv lit path faithful isShape leads once fresh =>
    solveBvLit_solves faithful isShape leads once fresh handled⟩
  obtain ⟨n, positive, name⟩ := sv
  obtain ⟨pol, litk, _ | op'⟩ := shape
  · cases isOp
  · obtain rfl := Option.some.inj isOp
    by_contra unhandled
    exact not_shapeSolved unhandled solved

/-- For `(bvult (bvnot x) #b1)` the inverter returns `(witness x (=> (distinct #b1 #b0) (bvult x #b1)))`, that is zero,
which does not satisfy the literal, while one does. -/
theorem solveBvLit_not_ult
    : ¬((plainInverter ⟨1, Nat.one_pos, 0⟩).solveBvLit ⟨1, Nat.one_pos, 0⟩
          (.rel .ult (.unary .not (.var Nat.one_pos 0)) (.const Nat.one_pos 1#1)) [0, 0]).Solves 1 ⟨1, Nat.one_pos, 0⟩
        (fun v => (Formula.rel .ult (.unary .not (.var Nat.one_pos 0)) (.const Nat.one_pos 1#1)).eval v = true) := by
  intro solves
  have false := solves (fun n _ => 0#n) (fun w member => ?_) ⟨1#1, by decide⟩
  · exact absurd false (by decide)
  · obtain rfl := List.mem_singleton.mp member
    change _ = true
    decide

end Ava6.Quantifiers.BvInverter
