import Ava6.Expr.AciNormSound

/-! The search for absorbing elements finds them exactly below applications of the kind, with any right
attributes of nodes, although these are shared by all kinds.
-/

namespace Ava6.Expr.Aci

open Library

-- Absorption

mutual

/-- An absorbing term is below applications of the kind. -/
def absorbs (k : Kind) (zero : Node) : Node → Bool
  | .leaf _ => false
  | .apply k' children => decide (k' = k) && absorbsIn k zero children

def absorbsIn (k : Kind) (zero : Node) : List Node → Bool
  | [] => false
  | node :: rest => decide (node = zero) || absorbs k zero node || absorbsIn k zero rest

end

variable {k : Kind} {zero : Node} {tn : TypeNode}

theorem absorbsIn_eq_any (nodes : List Node)
    : absorbsIn k zero nodes = nodes.any (fun n => decide (n = zero) || absorbs k zero n) := by
  induction nodes with
  | nil => rfl
  | cons node rest ih => rw [absorbsIn, ih, List.any_cons]

theorem absorbs_of_kind {n : Node} (isKind : n.kind = some k)
    : absorbs k zero n = n.children.any (fun c => decide (c = zero) || absorbs k zero c) := by
  cases n with
  | leaf symbol => cases isKind
  | apply k' children =>
      cases isKind
      rw [absorbs, absorbsIn_eq_any]
      simp [Node.children]

theorem absorbs_of_not_kind {n : Node} (notKind : n.kind ≠ some k) : absorbs k zero n = false := by
  cases n with
  | leaf symbol => rfl
  | apply k' children =>
      have different : k' ≠ k := fun same => notKind (by rw [same]; rfl)
      simp [absorbs, different]

section Values

variable {E U : Type} {m : MonoidOn (Value E U)} (I : Interpretation E U)

theorem isZero_zeroElement (isOp : operation k tn = some m) (isZero : getZeroElement k tn = some zero)
    : m.IsZero (I.eval zero) := by
  cases k with
  | or | and =>
      cases isOp
      cases isZero
      refine ⟨⟨_, rfl⟩, ?_, ?_⟩ <;> rintro _ ⟨b, rfl⟩ <;> cases b <;> rfl
  | regexpUnion =>
      cases isOp
      cases isZero
      exact ⟨⟨_, rfl⟩, fun _ => congrArg Value.language (top_sup_eq _),
        fun _ => congrArg Value.language (sup_top_eq _)⟩
  | regexpInter =>
      cases isOp
      cases isZero
      exact ⟨⟨_, rfl⟩, fun _ => congrArg Value.language (bot_inf_eq _),
        fun _ => congrArg Value.language (inf_bot_eq _)⟩
  | regexpConcat =>
      cases isOp
      cases isZero
      exact ⟨⟨_, rfl⟩, fun _ => congrArg Value.language (zero_mul _),
        fun _ => congrArg Value.language (mul_zero _)⟩
  | bitvectorOr | bitvectorAnd =>
      cases tn <;> simp only [operation, getZeroElement, reduceCtorEq, Option.some.injEq] at isOp isZero
      subst isOp isZero
      refine ⟨⟨_, rfl, List.length_replicate⟩, ?_, ?_⟩ <;> rintro _ ⟨digits, rfl, isSize⟩ <;>
        refine congrArg Value.bits
          (List.ext_getElem (by simp [Value.asBits, isSize, mkOnes, mkZero, Interpretation.eval,
            Interpretation.evalLeaf]) (fun i _ _ => ?_)) <;>
        simp [Value.asBits, mkOnes, mkZero, Interpretation.eval, Interpretation.evalLeaf]
  | bitvectorXor | bitvectorConcat | stringConcat => cases isZero

/-- A term with an absorbing one below its kind has its value. -/
theorem eval_of_absorbs (isOp : operation k tn = some m) (isZero : getZeroElement k tn = some zero)
    (n : Node) (fits : Fits k tn n) (holds : absorbs k zero n = true)
    : I.eval n = I.eval zero := by
  induction size : n.size using Nat.strong_induction_on generalizing n with
  | _ bound ih =>
  have isKind : n.kind = some k := by
    by_contra notKind
    rw [absorbs_of_not_kind notKind] at holds
    cases holds
  obtain ⟨isValue, fitsArgs⟩ := eval_of_kind I isOp fits isKind
  rw [absorbs_of_kind isKind, List.any_eq_true] at holds
  obtain ⟨c, member, isAbsorbing⟩ := holds
  have sameValue : I.eval c = I.eval zero := by
    rcases Bool.or_eq_true _ _ ▸ isAbsorbing with isZeroTerm | below
    · rw [of_decide_eq_true isZeroTerm]
    · have smaller : c.size < bound := by
        have inside : c.size ≤ Node.sizes n.children := Node.size_le_sizes member
        have children := Node.sizes_children_lt isKind
        omega
      exact ih c.size smaller c (fitsArgs c member) below rfl
  rw [isValue]
  refine MonoidOn.product_of_zero_mem (isZero_zeroElement I isOp isZero) ?_ (all_of_fits I isOp fitsArgs)
  rw [← sameValue]
  exact List.mem_map_of_mem member

end Values

-- Abstract types

mutual

/-- Arguments fit the type of a term or are abstract. -/
def Typed : Node → Prop
  | .leaf _ => True
  | .apply k children =>
      AllTyped children
      ∧ ∀ t ∈ Node.types children, ArgFits k (Node.apply k children).type t ∨ t = .abstract

def AllTyped : List Node → Prop
  | [] => True
  | node :: rest => Typed node ∧ AllTyped rest

end

theorem allTyped_iff {nodes : List Node} : AllTyped nodes ↔ ∀ n ∈ nodes, Typed n := by
  induction nodes with
  | nil => simp [AllTyped]
  | cons node rest ih => rw [AllTyped, ih, List.forall_mem_cons]

theorem typed_children {n : Node} (typed : Typed n) (isKind : n.kind = some k)
    : ∀ c ∈ n.children, Typed c ∧ (ArgFits k n.type c.type ∨ c.type = .abstract) := by
  cases n with
  | leaf symbol => cases isKind
  | apply k children =>
      cases isKind
      rw [Typed, allTyped_iff, types_eq_map] at typed
      exact fun c member => ⟨typed.1 c member, typed.2 c.type (List.mem_map_of_mem member)⟩

mutual

/-- Well typed terms have arguments that fit, by induction on terms. -/
theorem WellTyped.typed (n : Node) (wellTyped : WellTyped n) : Typed n := by
  cases n with
  | leaf symbol => simp [Typed]
  | apply k children =>
      rw [WellTyped] at wellTyped
      rw [Typed]
      exact ⟨AllWellTyped.allTyped children wellTyped.1, fun t member => (wellTyped.2 t member).1⟩

theorem AllWellTyped.allTyped (nodes : List Node) (wellTyped : AllWellTyped nodes)
    : AllTyped nodes := by
  cases nodes with
  | nil => simp [AllTyped]
  | cons node rest =>
      rw [AllWellTyped] at wellTyped
      rw [AllTyped]
      exact ⟨WellTyped.typed node wellTyped.1, AllWellTyped.allTyped rest wellTyped.2⟩

end

theorem getZeroElement_congr {t : TypeNode} (fits : ArgFits k tn t)
    : getZeroElement k t = getZeroElement k tn := by
  cases k with
  | or | and | regexpUnion | regexpInter | regexpConcat | bitvectorXor | bitvectorConcat
  | stringConcat => rfl
  | bitvectorAnd | bitvectorOr =>
      cases (fits : t = tn)
      rfl

theorem type_zeroElement (isZero : getZeroElement k tn = some zero) : zero.type ≠ .abstract := by
  cases k <;> cases tn <;> simp only [getZeroElement, reduceCtorEq, Option.some.injEq] at isZero <;>
    subst isZero <;> nofun

/-- Arguments fit an abstract type of a kind with absorbing elements only if they are abstract. -/
theorem abstract_of_argFits {t : TypeNode} (isZero : getZeroElement k tn = some zero)
    {n : Node} (isKind : n.kind = some k) (isAbstract : n.type = .abstract)
    (fits : ArgFits k n.type t)
    : t = .abstract := by
  cases n with
  | leaf symbol => cases isKind
  | apply k children =>
      cases isKind
      cases k with
      | or | and | regexpUnion | regexpInter | regexpConcat => cases isAbstract
      | bitvectorAnd | bitvectorOr => exact (fits : t = _).trans isAbstract
      | bitvectorXor | bitvectorConcat | stringConcat => cases isZero

/-- Terms of abstract type have no absorbing elements below them. -/
theorem absorbs_of_abstract (isZero : getZeroElement k tn = some zero) (n : Node) (typed : Typed n)
    (isAbstract : n.type = .abstract)
    : absorbs k zero n = false := by
  induction size : n.size using Nat.strong_induction_on generalizing n with
  | _ bound ih =>
  by_cases isKind : n.kind = some k
  · rw [absorbs_of_kind isKind, List.any_eq_false]
    intro c member
    obtain ⟨typedArg, fitsOrAbstract⟩ := typed_children typed isKind c member
    have abstractArg : c.type = .abstract :=
      fitsOrAbstract.elim (abstract_of_argFits isZero isKind isAbstract) id
    have notZero : c ≠ zero := by
      rintro rfl
      exact type_zeroElement isZero abstractArg
    have smaller : c.size < bound := by
      have inside : c.size ≤ Node.sizes n.children := Node.size_le_sizes member
      have children := Node.sizes_children_lt isKind
      omega
    simp [notZero, ih c.size smaller c typedArg abstractArg rfl]
  · exact absorbs_of_not_kind isKind

/-- The absorbing element of a term's type, or any for terms of abstract type. -/
def ZeroFor (k : Kind) (zero n : Node) : Prop :=
  ∃ tn, getZeroElement k tn = some zero ∧ (ArgFits k tn n.type ∨ n.type = .abstract)

theorem ZeroFor.child {n c : Node} (zeroFor : ZeroFor k zero n) (typed : Typed n)
    (isKind : n.kind = some k) (member : c ∈ n.children)
    : ZeroFor k zero c := by
  obtain ⟨tn, isZero, fits⟩ := zeroFor
  refine ⟨tn, isZero, ?_⟩
  rcases (typed_children typed isKind c member).2 with fitsArg | isAbstract
  · rcases fits with fits | isAbstract
    · cases k with
      | bitvectorAnd | bitvectorOr => exact Or.inl ((fitsArg : c.type = _).trans fits)
      | or | and | regexpUnion | regexpInter | regexpConcat => exact Or.inl fitsArg
      | bitvectorXor | bitvectorConcat | stringConcat => cases isZero
    · exact Or.inr (abstract_of_argFits isZero isKind isAbstract fitsArg)
  · exact Or.inr isAbstract

theorem ZeroFor.absorbs_eq {n zero' : Node} (zeroFor : ZeroFor k zero n) (zeroFor' : ZeroFor k zero' n)
    (typed : Typed n)
    : absorbs k zero n = absorbs k zero' n := by
  obtain ⟨tn, isZero, fits⟩ := zeroFor
  obtain ⟨tn', isZero', fits'⟩ := zeroFor'
  by_cases isAbstract : n.type = .abstract
  · rw [absorbs_of_abstract isZero n typed isAbstract, absorbs_of_abstract isZero' n typed isAbstract]
  · have first := getZeroElement_congr (fits.resolve_right isAbstract)
    have second := getZeroElement_congr (fits'.resolve_right isAbstract)
    rw [isZero] at first
    rw [isZero', first] at second
    rw [Option.some.inj second]

-- The search

/-- What is computed about absorption is right, whichever check it was computed for. -/
def AbsorbExact (attrs : Attributes) : Prop :=
  ∀ n k zero, attrs.absorbComputed n = true → n.kind = some k → ZeroFor k zero n →
    attrs.absorb n = absorbs k zero n

theorem AbsorbExact.setAbsorb {attrs : Attributes} (isExact : AbsorbExact attrs) {cur : Node}
    (typed : Typed cur) (isKind : cur.kind = some k) (zeroFor : ZeroFor k zero cur)
    : AbsorbExact (attrs.setAbsorb cur (absorbs k zero cur)) := by
  intro n k' zero' isComputed isKind' zeroFor'
  by_cases isCur : n = cur
  · subst isCur
    cases isKind.symm.trans isKind'
    rw [Attributes.setAbsorb_absorb_self]
    exact zeroFor.absorbs_eq zeroFor' typed
  · obtain ⟨sameAbsorb, sameComputed⟩ := attrs.setAbsorb_of_ne isCur
    rw [sameComputed] at isComputed
    rw [sameAbsorb]
    exact isExact n k' zero' isComputed isKind' zeroFor'

/-- The attributes are right for the arguments of a term, so that they tell whether it absorbs. -/
theorem isAnnil_eq {attrs : Attributes} (isExact : AbsorbExact attrs) {cur : Node} (typed : Typed cur)
    (isKind : cur.kind = some k) (zeroFor : ZeroFor k zero cur)
    (computed : ∀ c ∈ cur.children, c.kind = some k → attrs.absorbComputed c = true)
    : isAnnil k zero attrs cur = absorbs k zero cur := by
  have same : ∀ c ∈ cur.children,
      (decide (c = zero) || (decide (c.kind = some k) && attrs.absorb c))
      = (decide (c = zero) || absorbs k zero c) := by
    intro c member
    by_cases argKind : c.kind = some k
    · rw [isExact c k zero (computed c member argKind) argKind (zeroFor.child typed isKind member)]
      simp [argKind]
    · simp [argKind, absorbs_of_not_kind argKind]
  rw [isAnnil, absorbs_of_kind isKind, Bool.eq_iff_iff, List.any_eq_true, List.any_eq_true]
  exact exists_congr (fun c => and_congr_right (fun member => by rw [same c member]))

/-- Nodes that are visited but not yet computed are larger than all those above them on the stack. -/
def Pending (visited : List Node) (attrs : Attributes) (cur : Node) : Prop :=
  ∀ v ∈ visited, attrs.absorbComputed v = false → cur.size < v.size

/-- After some steps the loop is done with the nodes on top of its stack. -/
structure Visits (k : Kind) (zero : Node) (nodes visited : List Node) (attrs : Attributes) where
  steps : Nat
  visited' : List Node
  attrs' : Attributes
  run (more : Nat) (visit : List Node)
    : absorbLoop k zero (steps + more) (nodes ++ visit) visited attrs
      = absorbLoop k zero more visit visited' attrs'
  isExact : AbsorbExact attrs'
  sameNormal : attrs'.normalForm = attrs.normalForm
  computed : ∀ n ∈ nodes, attrs'.absorbComputed n = true
  keepsComputed : ∀ n, attrs.absorbComputed n = true → attrs'.absorbComputed n = true
  keepsVisited : ∀ v ∈ visited, v ∈ visited'
  pending : ∀ v ∈ visited', attrs'.absorbComputed v = false → v ∈ visited

namespace Visits

variable {visited nodes rest : List Node} {attrs : Attributes} {cur : Node}

def nil (isExact : AbsorbExact attrs) : Visits k zero [] visited attrs where
  steps := 0
  visited' := visited
  attrs' := attrs
  run more visit := by rw [Nat.zero_add, List.nil_append]
  isExact := isExact
  sameNormal := rfl
  computed := nofun
  keepsComputed _ isComputed := isComputed
  keepsVisited _ member := member
  pending _ member _ := member

/-- One node after the other. -/
def append (first : Visits k zero nodes visited attrs)
    (second : Visits k zero rest first.visited' first.attrs')
    : Visits k zero (nodes ++ rest) visited attrs where
  steps := first.steps + second.steps
  visited' := second.visited'
  attrs' := second.attrs'
  run more visit := by rw [Nat.add_assoc, List.append_assoc, first.run, second.run]
  isExact := second.isExact
  sameNormal := second.sameNormal.trans first.sameNormal
  computed n member := (List.mem_append.mp member).elim
    (fun front => second.keepsComputed n (first.computed n front)) (second.computed n)
  keepsComputed n isComputed := second.keepsComputed n (first.keepsComputed n isComputed)
  keepsVisited v member := second.keepsVisited v (first.keepsVisited v member)
  pending v member notComputed := by
    refine first.pending v (second.pending v member notComputed) ?_
    by_contra isComputed
    rw [second.keepsComputed v (by simpa using isComputed)] at notComputed
    cases notComputed

theorem pending_mono (first : Visits k zero nodes visited attrs) (isPending : Pending visited attrs cur)
    : Pending first.visited' first.attrs' cur := by
  intro v member notComputed
  refine isPending v (first.pending v member notComputed) ?_
  by_contra isComputed
  rw [first.keepsComputed v (by simpa using isComputed)] at notComputed
  cases notComputed

/-- A computed node is popped. -/
def ofComputed (isExact : AbsorbExact attrs) (isComputed : attrs.absorbComputed cur = true)
    : Visits k zero [cur] visited attrs where
  steps := 1
  visited' := visited
  attrs' := attrs
  run more visit := by
    rw [Nat.add_comm, List.singleton_append, absorbLoop, if_pos isComputed]
  isExact := isExact
  sameNormal := rfl
  computed n member := List.mem_singleton.mp member ▸ isComputed
  keepsComputed _ known := known
  keepsVisited _ member := member
  pending _ member _ := member

/-- A visited node whose arguments are computed is computed and popped. -/
def ofVisited (isExact : AbsorbExact attrs) (notComputed : attrs.absorbComputed cur = false)
    (isVisited : cur ∈ visited) (typed : Typed cur) (isKind : cur.kind = some k)
    (zeroFor : ZeroFor k zero cur)
    (args : ∀ c ∈ cur.children, c.kind = some k → attrs.absorbComputed c = true)
    : Visits k zero [cur] visited attrs where
  steps := 1
  visited' := visited
  attrs' := attrs.setAbsorb cur (absorbs k zero cur)
  run more visit := by
    rw [Nat.add_comm, List.singleton_append, absorbLoop, notComputed, List.contains_iff_mem.mpr isVisited,
      isAnnil_eq isExact typed isKind zeroFor args]
    rfl
  isExact := isExact.setAbsorb typed isKind zeroFor
  sameNormal := rfl
  computed n member := by
    rw [List.mem_singleton.mp member, Attributes.setAbsorb_computed_self]
  keepsComputed n known := by
    by_cases isCur : n = cur
    · rw [isCur, Attributes.setAbsorb_computed_self]
    · rw [(Attributes.setAbsorb_of_ne isCur).2, known]
  keepsVisited _ member := member
  pending _ member _ := member

/-- A node that is not yet visited is visited with its arguments pushed on top of it. -/
def ofPushed (notComputed : attrs.absorbComputed cur = false) (notVisited : cur ∉ visited)
    (all : Visits k zero
      ((cur.children.filter (fun cc => decide (cc.kind = some k))).reverse ++ [cur])
      (cur :: visited) attrs)
    : Visits k zero [cur] visited attrs where
  steps := all.steps + 1
  visited' := all.visited'
  attrs' := all.attrs'
  run more visit := by
    have step : all.steps + 1 + more = all.steps + more + 1 := by omega
    have fresh : (!visited.contains cur) = true := by simpa using notVisited
    rw [step, List.singleton_append, absorbLoop, notComputed, if_neg Bool.false_ne_true, if_pos fresh,
      ← all.run, List.append_assoc, List.singleton_append]
  isExact := all.isExact
  sameNormal := all.sameNormal
  computed n member := all.computed n (List.mem_append_right _ member)
  keepsComputed := all.keepsComputed
  keepsVisited v member := all.keepsVisited v (List.mem_cons_of_mem _ member)
  pending v member isPending := by
    rcases List.mem_cons.mp (all.pending v member isPending) with rfl | old
    · rw [all.computed v (by simp)] at isPending
      cases isPending
    · exact old

end Visits

variable {visited nodes : List Node} {attrs : Attributes}

theorem visits_list
    (each : ∀ cur ∈ nodes, ∀ visited attrs, AbsorbExact attrs → Pending visited attrs cur →
      Nonempty (Visits k zero [cur] visited attrs))
    (isExact : AbsorbExact attrs) (isPending : ∀ cur ∈ nodes, Pending visited attrs cur)
    : Nonempty (Visits k zero nodes visited attrs) := by
  induction nodes generalizing visited attrs with
  | nil => exact ⟨.nil isExact⟩
  | cons cur rest ih =>
      obtain ⟨eachCur, eachRest⟩ := List.forall_mem_cons.mp each
      obtain ⟨pendingCur, pendingRest⟩ := List.forall_mem_cons.mp isPending
      obtain ⟨first⟩ := eachCur visited attrs isExact pendingCur
      obtain ⟨second⟩ := ih eachRest first.isExact
        (fun n member => first.pending_mono (pendingRest n member))
      exact ⟨first.append second⟩

/-- The loop computes the node on top of its stack. -/
theorem visits (cur : Node) (visited : List Node) (attrs : Attributes) (isExact : AbsorbExact attrs)
    (isPending : Pending visited attrs cur) (typed : Typed cur) (isKind : cur.kind = some k)
    (zeroFor : ZeroFor k zero cur)
    : Nonempty (Visits k zero [cur] visited attrs) := by
  induction size : cur.size using Nat.strong_induction_on generalizing cur visited attrs with
  | _ bound ih =>
  cases isComputed : attrs.absorbComputed cur with
  | true => exact ⟨.ofComputed isExact isComputed⟩
  | false =>
      have notVisited : cur ∉ visited := fun member =>
        Nat.lt_irrefl _ (isPending cur member isComputed)
      let pushed := (cur.children.filter (fun cc => decide (cc.kind = some k))).reverse
      have isArg (c : Node) : c ∈ pushed ↔ c ∈ cur.children ∧ c.kind = some k := by simp [pushed]
      have smaller (c : Node) (member : c ∈ cur.children) : c.size < cur.size :=
        Nat.lt_of_le_of_lt (Node.size_le_sizes member) (Node.sizes_children_lt isKind)
      obtain ⟨args⟩ : Nonempty (Visits k zero pushed (cur :: visited) attrs) := by
        refine visits_list (fun c member visited attrs isExact isPending => ?_) isExact
          (fun c member v isVisited notComputed => ?_)
        · obtain ⟨isChild, argKind⟩ := (isArg c).mp member
          exact ih c.size (size ▸ smaller c isChild) c visited attrs isExact isPending
            (typed_children typed isKind c isChild).1 argKind (zeroFor.child typed isKind isChild) rfl
        · have below : c.size < cur.size := smaller c ((isArg c).mp member).1
          rcases List.mem_cons.mp isVisited with rfl | old
          · exact below
          · exact Nat.lt_trans below (isPending v old notComputed)
      refine ⟨.ofPushed isComputed notVisited (args.append ?_)⟩
      cases isComputed' : args.attrs'.absorbComputed cur with
      | true => exact .ofComputed args.isExact isComputed'
      | false =>
          exact .ofVisited args.isExact isComputed' (args.keepsVisited cur (List.mem_cons_self ..)) typed
            isKind zeroFor (fun c isChild argKind => args.computed c ((isArg c).mpr ⟨isChild, argKind⟩))

theorem absorbLoop_mono {steps : Nat} {visit : List Node} {result : Attributes}
    (done : absorbLoop k zero steps visit visited attrs = some result) (more : Nat)
    : absorbLoop k zero (steps + more) visit visited attrs = some result := by
  induction steps generalizing visit visited attrs with
  | zero => cases done
  | succ steps ih =>
      rw [Nat.succ_add]
      cases visit with
      | nil => exact done
      | cons cur visit =>
          rw [absorbLoop] at done ⊢
          split at done
          · next isComputed => rw [if_pos isComputed, ih done]
          · next notComputed =>
              rw [if_neg notComputed]
              split at done
              · next fresh => rw [if_pos fresh, ih done]
              · next notFresh => rw [if_neg notFresh, ih done]

/-- The search ends with one result for any number of steps that is enough. -/
theorem isAbsorb_spec (isExact : AbsorbExact attrs) {a : Node} (typed : Typed a)
    (isKind : a.kind = some k) (isZero : getZeroElement k a.type = some zero)
    : ∃ attrs' bound, AbsorbExact attrs' ∧ attrs'.normalForm = attrs.normalForm
      ∧ (∀ more, isAbsorb (bound + more) attrs a zero = some (absorbs k zero a, attrs'))
      ∧ ∀ steps result, isAbsorb steps attrs a zero = some result →
        result = (absorbs k zero a, attrs') := by
  have isAbsorbing : isAbsorbKind k = true := by
    cases k <;> first | rfl | cases isZero
  have zeroFor : ZeroFor k zero a := by
    refine ⟨a.type, isZero, Or.inl ?_⟩
    cases a with
    | leaf symbol => cases isKind
    | apply k children => cases isKind; cases k <;> first | rfl | cases isZero
  obtain ⟨done⟩ := visits a [] attrs isExact nofun typed isKind zeroFor
  have isResult : done.attrs'.absorb a = absorbs k zero a :=
    done.isExact a k zero (done.computed a (List.mem_cons_self ..)) isKind zeroFor
  have run : absorbLoop k zero (done.steps + 1) [a] [] attrs = some done.attrs' := by
    have steps := done.run 1 []
    rw [List.append_nil, absorbLoop] at steps
    exact steps
  refine ⟨done.attrs', done.steps + 1, done.isExact, done.sameNormal, ?_, ?_⟩
  · intro more
    simp only [isAbsorb, isKind, isAbsorbing, absorbLoop_mono run more, isResult]
    rfl
  · intro steps result isDone
    simp only [isAbsorb, isKind, isAbsorbing, Bool.not_true, Bool.false_eq_true, if_false] at isDone
    split at isDone
    · cases isDone
    · next attrs' loopDone =>
        have same := absorbLoop_mono loopDone (done.steps + 1)
        rw [Nat.add_comm, absorbLoop_mono run steps] at same
        cases same
        rw [← Option.some.inj isDone, isResult]

end Ava6.Expr.Aci
