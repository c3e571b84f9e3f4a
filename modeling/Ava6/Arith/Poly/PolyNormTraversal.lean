import Mathlib.Logic.Relation
import Ava6.Arith.Poly.PolyNormPolynomial
import Ava6.Arith.Poly.ProofChecker

/-! The loop that makes the polynomial of a node: a stack of nodes to visit, and the polynomials of the
nodes visited, where an empty one is also for a node whose children are still to be visited. Whatever nodes
are shared, the result is the polynomial of the node.
-/

namespace Ava6.Arith.Poly.PolyNorm

open Library

variable [LinearOrder Node] [LinearOrder MonoVar]

def empty (p : PolyNorm) : Bool := p.monomials.entries.isEmpty

structure Traversal where
  visit : List Node
  visited : Node → Option PolyNorm

/-- The polynomial of a node that has none to wait for. -/
def immediate : Node → PolyNorm
  | .constInteger value => constant value
  | .constRational value => constant value
  | .constBitvector _ value => constant value.toNat
  | n => leaf n

omit [LinearOrder Node] [LinearOrder MonoVar] in
/-- The children to visit first, of sums, products and the like and of divisions by a constant. -/
def childrenToVisit : Node → Option (List Node)
  | .apply k children =>
      if Kind.isCombination k then some children.toList
      else if (constantDivisor k children.toList).isSome then some (children.toList.take 1)
      else none
  | _ => none

/-- The polynomial of a node from those of its children, or nothing if one of them is missing or the
operator is not handled. -/
def fromChildren (visited : Node → Option PolyNorm) (ret : PolyNorm) : Node → Option PolyNorm
  | .apply k children =>
      if Kind.isCombination k then (children.toList.mapM visited).map (combine k 0 ret)
      else
        match constantDivisor k children.toList, children.toList with
        | some c, dividend :: _ => (visited dividend).map (fun p => (ret.add p).multiplyMonomial .null c⁻¹)
        | _, _ => none
  | .constInteger _ | .constRational _ | .constBitvector _ _ => some ret
  | .var _ _ => none

inductive Outcome
  | running (s : Traversal)
  | finished (visited : Node → Option PolyNorm)
  | unhandled

namespace Traversal

/-- One round of the loop. -/
def step (s : Traversal) : Outcome :=
  match s.visit with
  | [] => .finished s.visited
  | cur :: visit =>
      match s.visited cur with
      | none =>
          match childrenToVisit cur with
          | some children =>
              .running ⟨children.reverse ++ cur :: visit, Function.update s.visited cur (some zero)⟩
          | none => .running ⟨visit, Function.update s.visited cur (some (immediate cur))⟩
      | some p =>
          if p.empty then
            match fromChildren s.visited p cur with
            | some ret => .running ⟨visit, Function.update s.visited cur (some ret)⟩
            | none => .unhandled
          else .running ⟨visit, s.visited⟩

def run : Nat → Traversal → Outcome
  | 0, s => .running s
  | rounds + 1, s =>
      match s.step with
      | .running s => run rounds s
      | outcome => outcome

end Traversal

/-- The loop for a number of rounds. -/
def mkPolyNormLoop (n : Node) (rounds : Nat) : Outcome := Traversal.run rounds ⟨[n], fun _ => none⟩

def Steps : Traversal → Traversal → Prop :=
  Relation.ReflTransGen (fun s s' => s.step = .running s')

theorem Steps.run {s s' : Traversal} (steps : Steps s s')
    : ∃ rounds, ∀ more, s.run (rounds + more) = s'.run more := by
  induction steps using Relation.ReflTransGen.head_induction_on with
  | refl => exact ⟨0, fun more => by rw [Nat.zero_add]⟩
  | head isStep _ ih =>
      obtain ⟨rounds, isRun⟩ := ih
      refine ⟨rounds + 1, fun more => ?_⟩
      have next : rounds + 1 + more = rounds + more + 1 := by omega
      rw [next, Traversal.run, isStep]
      exact isRun more

variable {n : Node}

omit [LinearOrder Node] [LinearOrder MonoVar] in
theorem sizeOf_mem (children : Nodes) (member : n ∈ children.toList)
    : sizeOf n < sizeOf children := by
  match children with
  | .nil => cases member
  | .cons head tail =>
      rw [Nodes.toList, List.mem_cons] at member
      rw [Nodes.cons.sizeOf_spec]
      rcases member with rfl | later
      · omega
      · have inTail := sizeOf_mem tail later
        omega

omit [LinearOrder Node] [LinearOrder MonoVar] in
theorem sizeOf_child {k : Kind} {children : Nodes} (member : n ∈ children.toList)
    : sizeOf n < sizeOf (Node.apply k children) := by
  have below := sizeOf_mem children member
  rw [Node.apply.sizeOf_spec]
  omega

omit [LinearOrder Node] [LinearOrder MonoVar] in
theorem sizeOf_childrenToVisit {child : Node} {children : List Node}
    (isVisit : childrenToVisit n = some children) (member : child ∈ children)
    : sizeOf child < sizeOf n := by
  cases n with
  | apply k nodes =>
      rw [childrenToVisit] at isVisit
      split at isVisit
      · cases isVisit
        exact sizeOf_child member
      · split at isVisit
        · cases isVisit
          exact sizeOf_child (List.mem_of_mem_take member)
        · cases isVisit
  | _ => cases isVisit

theorem mkPolyNorm_immediate (noChildren : childrenToVisit n = none)
    : immediate n = mkPolyNorm n := by
  cases n with
  | apply k children =>
      rw [childrenToVisit] at noChildren
      split at noChildren
      · cases noChildren
      · next notCombination =>
          split at noChildren
          · cases noChildren
          · next noDivisor =>
              have isLeaf : IsLeaf (.apply k children) :=
                ⟨rfl, eq_false_of_ne_true notCombination, Option.not_isSome_iff_eq_none.mp noDivisor⟩
              exact (mkPolyNorm_leaf isLeaf).symm
  | _ => rfl

variable {visited : Node → Option PolyNorm}

theorem mapM_visited (nodes : List Node)
    (below : ∀ child ∈ nodes, visited child = some (mkPolyNorm child))
    : nodes.mapM visited = some (nodes.map mkPolyNorm) := by
  induction nodes with
  | nil => rfl
  | cons n nodes ih =>
      obtain ⟨first, rest⟩ := List.forall_mem_cons.mp below
      simp [List.mapM_cons, first, ih rest]

theorem fromChildren_eq {children : List Node}
    (isVisit : childrenToVisit n = some children)
    (below : ∀ child ∈ children, visited child = some (mkPolyNorm child))
    : fromChildren visited zero n = some (mkPolyNorm n) := by
  cases n with
  | apply k nodes =>
      rw [childrenToVisit] at isVisit
      rw [mkPolyNorm]
      unfold fromChildren ofChildren
      dsimp only
      split at isVisit
      · next isCombination =>
          cases isVisit
          have found : nodes.toList.mapM visited = some (nodes.toList.map mkPolyNorm) :=
            mapM_visited nodes.toList below
          rw [if_pos isCombination, if_pos isCombination, found, mkPolyNorms_eq]
          rfl
      · next notCombination =>
          rw [if_neg notCombination, if_neg notCombination, mkPolyNorms_eq]
          split at isVisit
          · next isDivisor =>
              obtain ⟨c, isConstant⟩ := Option.isSome_iff_exists.mp isDivisor
              cases isVisit
              rw [isConstant]
              cases isNodes : nodes.toList with
              | nil =>
                  rw [isNodes] at isConstant
                  cases isConstant
              | cons dividend rest =>
                  rw [isNodes] at below
                  simp only [below dividend (by simp), Option.map_some, List.map_cons]
          · cases isVisit
  | _ => cases isVisit

/-- Polynomials of nodes up to a size are right, and those of their children are there. -/
def Sound (bound : Nat) (visited : Node → Option PolyNorm) : Prop :=
  ∀ x p, sizeOf x ≤ bound → visited x = some p
    → p = mkPolyNorm x ∧ ∀ children, childrenToVisit x = some children → ∀ y ∈ children, (visited y).isSome

/-- Nodes up to a size are visited, and nothing else changes. -/
structure Extends (bound : Nat) (visited visited' : Node → Option PolyNorm) : Prop where
  sound : Sound bound visited'
  keeps : ∀ x, (visited x).isSome → (visited' x).isSome
  others : ∀ x, bound < sizeOf x → visited' x = visited x

variable {bound : Nat}

theorem Sound.mono {bound' : Nat} (sound : Sound bound visited)
    (le : bound' ≤ bound)
    : Sound bound' visited :=
  fun x p small => sound x p (Nat.le_trans small le)

/-- What is right for larger nodes stays so when smaller ones are visited. -/
theorem Extends.lift {bound' : Nat} {visited' : Node → Option PolyNorm}
    (extends' : Extends bound' visited visited') (sound : Sound bound visited) (le : bound' ≤ bound)
    : Extends bound visited visited' := by
  refine ⟨fun x p small isVisited => ?_, extends'.keeps, fun x large => extends'.others x (by omega)⟩
  by_cases smaller : sizeOf x ≤ bound'
  · exact extends'.sound x p smaller isVisited
  · rw [extends'.others x (by omega)] at isVisited
    obtain ⟨isRight, children⟩ := sound x p small isVisited
    exact ⟨isRight, fun nodes isVisit y member => extends'.keeps y (children nodes isVisit y member)⟩

theorem Extends.trans {visited' visited'' : Node → Option PolyNorm}
    (first : Extends bound visited visited') (second : Extends bound visited' visited'')
    : Extends bound visited visited'' :=
  ⟨second.sound, fun x isSome => second.keeps x (first.keeps x isSome),
    fun x large => (second.others x large).trans (first.others x large)⟩

/-- A node on top of the stack is visited, with those below it. -/
def Visits (n : Node) : Prop :=
  ∀ visit visited, Sound (sizeOf n) visited
    → ∃ visited', Steps ⟨n :: visit, visited⟩ ⟨visit, visited'⟩ ∧ Extends (sizeOf n) visited visited'
      ∧ (visited' n).isSome

theorem visits_list (nodes : List Node) (each : ∀ n ∈ nodes, Visits n) (bound : Nat)
    (small : ∀ n ∈ nodes, sizeOf n ≤ bound) (visit : List Node) (visited : Node → Option PolyNorm)
    (sound : Sound bound visited)
    : ∃ visited', Steps ⟨nodes ++ visit, visited⟩ ⟨visit, visited'⟩ ∧ Extends bound visited visited'
      ∧ ∀ n ∈ nodes, (visited' n).isSome := by
  induction nodes generalizing visited with
  | nil => exact ⟨visited, .refl, ⟨sound, fun _ => id, fun _ _ => rfl⟩, nofun⟩
  | cons n nodes ih =>
      obtain ⟨visitsN, visitsRest⟩ := List.forall_mem_cons.mp each
      obtain ⟨smallN, smallRest⟩ := List.forall_mem_cons.mp small
      obtain ⟨visited', steps, extends', isVisited⟩ := visitsN (nodes ++ visit) visited (sound.mono smallN)
      have lifted := extends'.lift sound smallN
      obtain ⟨visited'', steps', extends'', areVisited⟩ := ih visitsRest smallRest visited' lifted.sound
      refine ⟨visited'', steps.trans steps', lifted.trans extends'', ?_⟩
      rw [List.forall_mem_cons]
      exact ⟨extends''.keeps n isVisited, areVisited⟩

/-- Storing the polynomial of a node whose children are visited. -/
theorem extends_update (sound : Sound (sizeOf n) visited)
    (children : ∀ nodes, childrenToVisit n = some nodes → ∀ y ∈ nodes, (visited y).isSome)
    : Extends (sizeOf n) visited (Function.update visited n (some (mkPolyNorm n))) := by
  have keeps (x : Node) (isSome : (visited x).isSome)
      : (Function.update visited n (some (mkPolyNorm n)) x).isSome := by
    by_cases same : x = n
    · rw [same, Function.update_self, Option.isSome_some]
    · rwa [Function.update_of_ne same]
  refine ⟨fun x p small isVisited => ?_, keeps, fun x large => ?_⟩
  · by_cases same : x = n
    · subst same
      rw [Function.update_self] at isVisited
      exact ⟨(Option.some.inj isVisited).symm, fun nodes isVisit y member => keeps y (children nodes isVisit y member)⟩
    · rw [Function.update_of_ne same] at isVisited
      obtain ⟨isRight, children⟩ := sound x p small isVisited
      exact ⟨isRight, fun nodes isVisit y member => keeps y (children nodes isVisit y member)⟩
  · exact Function.update_of_ne (fun same => by rw [same] at large; omega) ..

theorem empty_iff {p : PolyNorm} : p.empty = true ↔ p = zero := by
  constructor
  · intro isEmpty
    obtain ⟨⟨entries, sorted⟩, nonzero⟩ := p
    obtain rfl : entries = [] := List.isEmpty_iff.mp isEmpty
    rfl
  · rintro rfl
    rfl

theorem leaf_not_empty (n : Node) : (leaf n).empty = false := by
  by_contra notFalse
  have isZero : leaf n = zero := empty_iff.mp (by simpa using notFalse)
  have isX := toPolynomial_leaf n
  rw [isZero, toPolynomial, evalAt_zero] at isX
  exact MvPolynomial.X_ne_zero n isX.symm

/-- A node that has been visited is taken from the stack. -/
theorem visits_again {visit : List Node} {p : PolyNorm}
    (sound : Sound (sizeOf n) visited) (isVisited : visited n = some p)
    : ∃ visited', Steps ⟨n :: visit, visited⟩ ⟨visit, visited'⟩ ∧ Extends (sizeOf n) visited visited'
      ∧ (visited' n).isSome := by
  obtain ⟨isRight, children⟩ := sound n p (Nat.le_refl _) isVisited
  by_cases isEmpty : p.empty = true
  · have isZero : p = zero := empty_iff.mp isEmpty
    have recomputed : fromChildren visited p n = some (mkPolyNorm n) := by
      cases isVisit : childrenToVisit n with
      | some nodes =>
          rw [isZero]
          refine fromChildren_eq isVisit (fun child member => ?_)
          obtain ⟨q, isChild⟩ := Option.isSome_iff_exists.mp (children nodes isVisit child member)
          have smaller := sizeOf_childrenToVisit isVisit member
          rw [isChild, (sound child q (by omega) isChild).1]
      | none =>
          rw [← mkPolyNorm_immediate isVisit]
          rw [isRight, ← mkPolyNorm_immediate isVisit] at isEmpty ⊢
          cases n with
          | var type name => exact absurd isEmpty (by simp [immediate, leaf_not_empty])
          | apply k nodes => exact absurd isEmpty (by simp [immediate, leaf_not_empty])
          | constInteger value => rfl
          | constRational value => rfl
          | constBitvector width value => rfl
    refine ⟨Function.update visited n (some (mkPolyNorm n)), .single ?_, extends_update sound children, ?_⟩
    · simp [Traversal.step, isVisited, isEmpty, recomputed]
    · rw [Function.update_self, Option.isSome_some]
  · refine ⟨visited, .single ?_, ⟨sound, fun _ => id, fun _ _ => rfl⟩, ?_⟩
    · simp [Traversal.step, isVisited, isEmpty]
    · rw [isVisited, Option.isSome_some]

/-- A node whose children are not visited yet is put aside until they are. -/
theorem visits_children {nodes visit : List Node}
    (sound : Sound (sizeOf n) visited) (notVisited : visited n = none)
    (isVisit : childrenToVisit n = some nodes) (each : ∀ child ∈ nodes, Visits child)
    : ∃ visited', Steps ⟨n :: visit, visited⟩ ⟨visit, visited'⟩ ∧ Extends (sizeOf n) visited visited'
      ∧ (visited' n).isSome := by
  have positive : 0 < sizeOf n := by cases n <;> simp
  have aside : Sound (sizeOf n - 1) (Function.update visited n (some zero)) := by
    intro x p small isVisited
    have differs : x ≠ n := fun same => by rw [same] at small; omega
    rw [Function.update_of_ne differs] at isVisited
    obtain ⟨isRight, children⟩ := sound x p (by omega) isVisited
    refine ⟨isRight, fun nodes' isVisit' y member => ?_⟩
    have smaller := sizeOf_childrenToVisit isVisit' member
    rw [Function.update_of_ne (fun same => by rw [same] at smaller; omega)]
    exact children nodes' isVisit' y member
  obtain ⟨visited', steps, extends', areVisited⟩ := visits_list nodes.reverse
    (fun child member => each child (List.mem_reverse.mp member)) (sizeOf n - 1)
    (fun child member => by
      have smaller := sizeOf_childrenToVisit isVisit (List.mem_reverse.mp member)
      omega)
    (n :: visit) _ aside
  have isAside : visited' n = some zero := by
    rw [extends'.others n (by omega), Function.update_self]
  have recomputed : fromChildren visited' zero n = some (mkPolyNorm n) := by
    refine fromChildren_eq isVisit (fun child member => ?_)
    obtain ⟨q, isChild⟩ := Option.isSome_iff_exists.mp (areVisited child (List.mem_reverse.mpr member))
    have smaller := sizeOf_childrenToVisit isVisit member
    rw [isChild, (extends'.sound child q (by omega) isChild).1]
  have first : Steps ⟨n :: visit, visited⟩
      ⟨nodes.reverse ++ n :: visit, Function.update visited n (some zero)⟩ := by
    refine .single ?_
    simp [Traversal.step, notVisited, isVisit]
  have last : Steps ⟨n :: visit, visited'⟩
      ⟨visit, Function.update visited' n (some (mkPolyNorm n))⟩ := by
    refine .single ?_
    simp [Traversal.step, isAside, empty_iff.mpr rfl, recomputed]
  have keeps (x : Node) (isSome : (visited x).isSome)
      : (Function.update visited' n (some (mkPolyNorm n)) x).isSome := by
    by_cases same : x = n
    · rw [same, Function.update_self, Option.isSome_some]
    · rw [Function.update_of_ne same]
      refine extends'.keeps x ?_
      rwa [Function.update_of_ne same]
  refine ⟨_, (first.trans steps).trans last, ⟨?_, keeps, ?_⟩, ?_⟩
  · intro x p small isVisited
    by_cases same : x = n
    · subst same
      rw [Function.update_self] at isVisited
      refine ⟨(Option.some.inj isVisited).symm, fun nodes' isVisit' y member => ?_⟩
      obtain rfl : nodes = nodes' := Option.some.inj (isVisit.symm.trans isVisit')
      have smaller := sizeOf_childrenToVisit isVisit member
      rw [Function.update_of_ne (fun same => by rw [same] at smaller; omega)]
      exact areVisited y (List.mem_reverse.mpr member)
    · rw [Function.update_of_ne same] at isVisited
      by_cases smaller : sizeOf x ≤ sizeOf n - 1
      · obtain ⟨isRight, children⟩ := extends'.sound x p smaller isVisited
        refine ⟨isRight, fun nodes' isVisit' y member => ?_⟩
        have below := sizeOf_childrenToVisit isVisit' member
        rw [Function.update_of_ne (fun same => by rw [same] at below; omega)]
        exact children nodes' isVisit' y member
      · rw [extends'.others x (by omega), Function.update_of_ne same] at isVisited
        obtain ⟨isRight, children⟩ := sound x p small isVisited
        exact ⟨isRight, fun nodes' isVisit' y member => keeps y (children nodes' isVisit' y member)⟩
  · intro x large
    have differs : x ≠ n := fun same => by rw [same] at large; omega
    rw [Function.update_of_ne differs, extends'.others x (by omega), Function.update_of_ne differs]
  · rw [Function.update_self, Option.isSome_some]

theorem visits (n : Node) : Visits n := by
  induction n using (measure (fun n : Node => sizeOf n)).wf.induction with
  | h n ih =>
  intro visit visited sound
  cases isVisited : visited n with
  | some p => exact visits_again sound isVisited
  | none =>
      cases isVisit : childrenToVisit n with
      | some nodes =>
          refine visits_children sound isVisited isVisit (fun child member => ?_)
          exact ih child (sizeOf_childrenToVisit isVisit member)
      | none =>
          refine ⟨Function.update visited n (some (mkPolyNorm n)), .single ?_, extends_update sound ?_, ?_⟩
          · simp [Traversal.step, isVisited, isVisit, mkPolyNorm_immediate isVisit]
          · intro nodes isVisit'
            rw [isVisit] at isVisit'
            cases isVisit'
          · rw [Function.update_self, Option.isSome_some]

/-- The loop ends with the polynomial of the node. -/
theorem mkPolyNormLoop_eq (n : Node)
    : ∃ rounds visited, (∀ more, mkPolyNormLoop n (rounds + more) = .finished visited)
      ∧ visited n = some (mkPolyNorm n) := by
  obtain ⟨visited, steps, extends', isVisited⟩ := visits n [] (fun _ => none) nofun
  obtain ⟨rounds, isRun⟩ := steps.run
  obtain ⟨p, isPoly⟩ := Option.isSome_iff_exists.mp isVisited
  refine ⟨rounds + 1, visited, fun more => ?_, ?_⟩
  · rw [mkPolyNormLoop, Nat.add_assoc, isRun, Nat.add_comm 1 more, Traversal.run, Traversal.step]
  · rw [isPoly, (extends'.sound n p (Nat.le_refl _) isPoly).1]

/-- Bit-vector terms with the same coefficients modulo two to the width have the same values. -/
theorem eval_of_isArithPolyNorm_bitVector (I : Interpretation) {a b : Node} {w : Nat}
    (typeA : a.getType = some (.bitVector w)) (typeB : b.getType = some (.bitVector w))
    (accepted : isArithPolyNorm a b = true)
    : a.eval I = b.eval I := by
  simp only [isArithPolyNorm, typeA, Option.any_some, decide_eq_true_eq] at accepted
  rcases accepted with same | equal
  · rw [same]
  · obtain ⟨x, valueA, evalA⟩ := (hasPolyValue I a _ typeA).bitVector w rfl
    obtain ⟨y, valueB, evalB⟩ := (hasPolyValue I b _ typeB).bitVector w rfl
    have member {n : Node} (typed : n.getType = some (.bitVector w))
        : (mkPolyNorm n).toPolynomial ∈ typedPolynomials (.bitVector w) := by
      rw [toPolynomial_mkPolyNorm n _ typed]
      exact polynomial_mem n _ typed
    obtain ⟨z, modA⟩ := evalAt_modCoeffs I (member typeA) (2 ^ w)
    obtain ⟨z', modB⟩ := evalAt_modCoeffs I (member typeB) (2 ^ w)
    have same := evalAt_of_isEqual (pointOf I) equal
    have difference : (x : ℝ) - y = 2 ^ w * (z - z') := by
      rw [← valueA, ← valueB, ← evalAt_mkPolyNorm I typeA, ← evalAt_mkPolyNorm I typeB, modA, modB, same]
      push_cast
      ring
    rw [evalA, evalB, ofInt_eq_iff_dvd]
    exact ⟨z - z', by exact_mod_cast difference⟩

/-- Polynomial normal forms are exact. Int and Real terms have equal normal forms just if they are the
same polynomial; bit-vector terms just if their coefficients are the same modulo two to the width, and then
they have the same values. Whatever is shared in a term, the loop ends with the normal form. -/
theorem isArithPolyNorm_exact
    : (∀ a b t s, a.getType = some t → b.getType = some s → t.isRealOrInt = true → s.isRealOrInt = true
        → (isArithPolyNorm a b = true ↔ polynomial a = polynomial b))
      ∧ (∀ a b w, a.getType = some (.bitVector w) → b.getType = some (.bitVector w)
        → (isArithPolyNorm a b = true
            ↔ ∀ m, ∃ z : ℤ, (polynomial a).coeff m - (polynomial b).coeff m = 2 ^ w * z)
          ∧ (isArithPolyNorm a b = true → ∀ I, a.eval I = b.eval I))
      ∧ ∀ n, ∃ rounds visited, (∀ more, mkPolyNormLoop n (rounds + more) = .finished visited)
        ∧ visited n = some (mkPolyNorm n) :=
  ⟨fun _ _ _ _ typeA typeB isArith _ => isArithPolyNorm_arith typeA typeB isArith,
    fun _ _ _ typeA typeB => ⟨isArithPolyNorm_bitVector typeA typeB,
      fun accepted I => eval_of_isArithPolyNorm_bitVector I typeA typeB accepted⟩,
    mkPolyNormLoop_eq⟩

omit [LinearOrder Node] [LinearOrder MonoVar] in
/-- Sums in either order, and the double of a bit. -/
theorem sums_have_normal_forms
    : @isArithPolyNorm nodeOrder monoVarOrder (mkNode .add [.var .int 0, .var .int 1])
        (mkNode .add [.var .int 1, .var .int 0]) = true
      ∧ @isArithPolyNorm nodeOrder monoVarOrder
        (mkNode .bitvectorAdd [.var (.bitVector 1) 0, .var (.bitVector 1) 0]) (.constBitvector 1 0) = true
      ∧ ∀ I, (mkNode .bitvectorAdd [.var (.bitVector 1) 0, .var (.bitVector 1) 0]).eval I
        = (Node.constBitvector 1 0).eval I := by
  obtain ⟨arith, bitVector, -⟩ := @isArithPolyNorm_exact nodeOrder monoVarOrder
  have double := bitVector (mkNode .bitvectorAdd [.var (.bitVector 1) 0, .var (.bitVector 1) 0])
    (.constBitvector 1 0) 1 (by decide) (by decide)
  have accepted := double.1.mpr (by
    intro m
    refine ⟨if Finsupp.single (Node.var (.bitVector 1) 0) 1 = m then 1 else 0, ?_⟩
    simp only [mkNode, Nodes.ofList, polynomial, polynomials, applyPolynomials, List.sum_cons,
      List.sum_nil, add_zero, MvPolynomial.coeff_add, MvPolynomial.coeff_X, BitVec.ofNat_eq_ofNat,
      BitVec.toNat_ofNat, Nat.zero_mod, Nat.cast_zero, map_zero, MvPolynomial.coeff_zero, sub_zero]
    split
    · norm_num
    · norm_num)
  refine ⟨?_, accepted, double.2 accepted⟩
  refine (arith _ _ .int .int (by decide) (by decide) rfl rfl).mpr ?_
  simp only [mkNode, Nodes.ofList, polynomial, polynomials, applyPolynomials, List.sum_cons,
    List.sum_nil, add_zero]
  exact add_comm _ _

end Ava6.Arith.Poly.PolyNorm
