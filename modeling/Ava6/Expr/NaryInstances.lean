import Ava6.Expr.NaryMatchPaths

/-! Instances of patterns, in which list variables stand for any number of arguments, and the paths that
symbols follow: symbols match a pattern exactly if they are its instance for some values of fitting type.
-/

namespace Ava6.Expr.Nary

/-- The numbers of children that an operator can have. -/
def ArityFits : Operator → Nat → Prop
  | .fixed _ arity, count => count = arity
  | .symbol f, count => count = f.arity
  | .nary _, count => 2 ≤ count
  | .variadic _, _ | .sexpr, _ => True
  | .typeOf, count | .setEmptyOfType, count | .seqEmptyOfType, count => count = 1

mutual

def WellFormed : Node → Prop
  | .var _ | .const _ => True
  | .apply op children => ArityFits op children.length ∧ AllWellFormed children

def AllWellFormed : List Node → Prop
  | [] => True
  | node :: rest => WellFormed node ∧ AllWellFormed rest

end

mutual

/-- List variables are only arguments of n-ary operators with at least two arguments. -/
def ListsUnderNary : Node → Prop
  | .var _ | .const _ => True
  | .apply op children =>
      (∀ v, .var v ∈ children → v.isList = true → ∃ name, op = .nary name)
      ∧ AllListsUnderNary children

def AllListsUnderNary : List Node → Prop
  | [] => True
  | node :: rest => ListsUnderNary node ∧ AllListsUnderNary rest

end

structure IsPattern (p : Node) : Prop where
  notList : ∀ v, p = .var v → v.isList = false
  wellFormed : WellFormed p
  listsUnderNary : ListsUnderNary p

theorem allWellFormed_iff {nodes : List Node} : AllWellFormed nodes ↔ ∀ n ∈ nodes, WellFormed n := by
  induction nodes with
  | nil => simp [AllWellFormed]
  | cons node rest ih => rw [AllWellFormed, ih, List.forall_mem_cons]

theorem allListsUnderNary_iff {nodes : List Node}
    : AllListsUnderNary nodes ↔ ∀ n ∈ nodes, ListsUnderNary n := by
  induction nodes with
  | nil => simp [AllListsUnderNary]
  | cons node rest ih => rw [AllListsUnderNary, ih, List.forall_mem_cons]

/-- Nodes of a stack are well formed, and a list variable is followed by the end of its arguments. -/
def Guarded : Stack → Prop
  | [] => True
  | none :: rest => Guarded rest
  | some n :: rest =>
      WellFormed n ∧ ListsUnderNary n ∧ (∀ v, n = .var v → v.isList = true → none ∈ rest) ∧ Guarded rest

theorem guarded_append {nodes : List Node} {rest : Stack} (wellFormed : AllWellFormed nodes)
    (lists : AllListsUnderNary nodes)
    (ends : ∀ v, .var v ∈ nodes → v.isList = true → none ∈ rest) (guarded : Guarded rest)
    : Guarded (nodes.map some ++ rest) := by
  induction nodes with
  | nil => exact guarded
  | cons node nodes ih =>
      rw [AllWellFormed] at wellFormed
      rw [AllListsUnderNary] at lists
      rw [List.map_cons, List.cons_append, Guarded]
      refine ⟨wellFormed.1, lists.1, fun v isVar isList => List.mem_append_right _ ?_,
        ih wellFormed.2 lists.2 (fun v member => ends v (List.mem_cons_of_mem _ member))⟩
      exact ends v (isVar ▸ List.mem_cons_self ..) isList

theorem Guarded.expand {op : Operator} {children : List Node} {rest : Stack}
    (guarded : Guarded (some (.apply op children) :: rest))
    : Guarded (expand op children rest) := by
  rw [Guarded, WellFormed, ListsUnderNary] at guarded
  obtain ⟨⟨_, wellFormed⟩, ⟨lists, listsBelow⟩, _, guardedRest⟩ := guarded
  rw [Nary.expand]
  cases isNary : isNAryKind op with
  | true => exact guarded_append wellFormed listsBelow (by simp) guardedRest
  | false =>
      refine guarded_append wellFormed listsBelow (fun v member isList => ?_) guardedRest
      obtain ⟨name, rfl⟩ := lists v member isList
      cases isNary

theorem Guarded.tail {sym : Option Node} {rest : Stack} (guarded : Guarded (sym :: rest))
    : Guarded rest := by
  cases sym with
  | none => exact guarded
  | some n => exact guarded.2.2.2

/-- Stacks that differ before the end of arguments differ in these. -/
theorem append_none_injective {front front' : List Node} {rest rest' : Stack}
    (same : front.map some ++ none :: rest = front'.map some ++ none :: rest')
    : front = front' ∧ rest = rest' := by
  induction front generalizing front' with
  | nil =>
      cases front' with
      | nil => exact ⟨rfl, (List.cons.inj same).2⟩
      | cons n front' => cases (List.cons.inj same).1
  | cons n front ih =>
      cases front' with
      | nil => cases (List.cons.inj same).1
      | cons n' front' =>
          obtain ⟨heads, tails⟩ := List.cons.inj same
          obtain ⟨fronts, rests⟩ := ih tails
          exact ⟨by rw [Option.some.inj heads, fronts], rests⟩

theorem expand_injective {op : Operator} {children children' : List Node} {rest rest' : Stack}
    (lengths : isNAryKind op = false → children.length = children'.length)
    (same : expand op children rest = expand op children' rest')
    : children = children' ∧ rest = rest' := by
  rw [expand, expand] at same
  cases isNary : isNAryKind op with
  | true =>
      rw [isNary] at same
      exact append_none_injective same
  | false =>
      rw [isNary] at same
      obtain ⟨fronts, rests⟩ := List.append_inj same (by simp [lengths isNary])
      exact ⟨List.map_injective_iff.mpr (Option.some_injective _) fronts, rests⟩

theorem arityFits_length {op : Operator} (notNary : isNAryKind op = false) {count count' : Nat}
    (fits : ArityFits op count) (fits' : ArityFits op count')
    : count = count' := by
  cases op with
  | nary name | variadic name | sexpr => cases notNary
  | fixed _ _ | symbol _ | typeOf | setEmptyOfType | seqEmptyOfType => exact Eq.trans fits (Eq.symm fits')

/-- A key tells what it is the key of, unless a function symbol is applied in one place and an argument in the
other.
-/
theorem keyOf_cases {sym sym' : Option Node} (same : keyOf sym = keyOf sym')
    (notBoth : ∀ v children, sym = some (.var v) → sym' ≠ some (.apply (.symbol v) children))
    (notBoth' : ∀ v children, sym' = some (.var v) → sym ≠ some (.apply (.symbol v) children))
    : sym = sym' ∨ ∃ op children children', sym = some (.apply op children)
      ∧ sym' = some (.apply op children') := by
  match sym, sym' with
  | some (.apply op children), some (.apply op' children') =>
      exact Or.inr ⟨op, children, children', rfl, by rw [operatorKey_injective same]⟩
  | some (.var v), some (.apply op children) =>
      have isSymbol : op = .symbol v := operatorKey_injective same.symm
      exact absurd (isSymbol ▸ rfl) (notBoth v children rfl)
  | some (.apply op children), some (.var v) =>
      have isSymbol : op = .symbol v := operatorKey_injective same
      exact absurd (isSymbol ▸ rfl) (notBoth' v children rfl)
  | none, none => exact Or.inl rfl
  | some (.var v), some (.var v') => exact Or.inl (by rw [Key.var.inj same])
  | some (.const c), some (.const c') => exact Or.inl (by rw [Key.const.inj same])
  | some (.apply op _), none | some (.apply op _), some (.const _)
  | none, some (.apply op _) | some (.const _), some (.apply op _) => cases op <;> cases same
  | none, some (.var _) | none, some (.const _) | some (.var _), none | some (.var _), some (.const _)
  | some (.const _), none | some (.const _), some (.var _) => cases same

theorem encode_cons (sym : Option Node) (rest : Stack)
    : encode (sym :: rest) = keyOf sym :: encode (Search.pushChildren sym rest) := by
  match sym with
  | none | some (.var _) | some (.const _) | some (.apply _ _) =>
      rw [encode]
      rfl

theorem Guarded.pushChildren {sym : Option Node} {rest : Stack} (guarded : Guarded (sym :: rest))
    : Guarded (Search.pushChildren sym rest) := by
  match sym with
  | some (.apply op children) => exact guarded.expand
  | none | some (.var _) | some (.const _) => exact guarded.tail

theorem pushChildren_injective {sym sym' : Option Node} {rest rest' : Stack} (guarded : Guarded (sym :: rest))
    (guarded' : Guarded (sym' :: rest'))
    (cases : sym = sym' ∨ ∃ op children children', sym = some (.apply op children)
      ∧ sym' = some (.apply op children'))
    (same : Search.pushChildren sym rest = Search.pushChildren sym' rest')
    : sym :: rest = sym' :: rest' := by
  have ofApply {op : Operator} {children children' : List Node} (guarded : Guarded (some (.apply op children) :: rest))
      (guarded' : Guarded (some (.apply op children') :: rest'))
      (same : expand op children rest = expand op children' rest')
      : some (Node.apply op children) :: rest = some (.apply op children') :: rest' := by
    rw [Guarded, WellFormed] at guarded guarded'
    obtain ⟨sameChildren, sameRest⟩ := expand_injective
      (fun notNary => arityFits_length notNary guarded.1.1 guarded'.1.1) same
    rw [sameChildren, sameRest]
  rcases cases with rfl | ⟨op, children, children', rfl, rfl⟩
  · match sym with
    | some (.apply op children) => exact ofApply guarded guarded' same
    | none | some (.var _) | some (.const _) => exact congrArg _ same
  · exact ofApply guarded guarded' same

theorem separate_ne {applied : Variable → Bool} {sym sym' : Option Node} {rest rest' : Stack}
    (separate : StackOnly (fun v isApplied => applied v = isApplied) (sym :: rest))
    (separate' : StackOnly (fun v isApplied => applied v = isApplied) (sym' :: rest')) (v : Variable)
    (children : List Node) (isVar : sym = some (.var v))
    : sym' ≠ some (.apply (.symbol v) children) := by
  rintro rfl
  subst isVar
  exact Bool.false_ne_true (separate.var.symm.trans (separate'.operator rfl))

/-- Different stacks of patterns have different paths. -/
theorem encode_injective {applied : Variable → Bool} (ps qs : Stack) (guarded : Guarded ps) (guarded' : Guarded qs)
    (separate : StackOnly (fun v isApplied => applied v = isApplied) ps)
    (separate' : StackOnly (fun v isApplied => applied v = isApplied) qs) (same : encode ps = encode qs)
    : ps = qs := by
  induction isSize : stackSize ps using Nat.strong_induction_on generalizing ps qs with
  | _ size ih =>
      cases ps with
      | nil =>
          cases qs with
          | nil => rfl
          | cons sym' rest' =>
              rw [encode_cons, encode] at same
              cases same
      | cons sym rest =>
          cases qs with
          | nil =>
              rw [encode_cons, encode] at same
              cases same
          | cons sym' rest' =>
              rw [encode_cons, encode_cons] at same
              obtain ⟨sameKey, samePath⟩ := List.cons.inj same
              have smaller : stackSize (Search.pushChildren sym rest) < size := by
                rw [← isSize]
                rcases sym with _ | (_ | ⟨op, children⟩ | _)
                case some.apply => exact stackSize_expand_lt ..
                all_goals simp [Search.pushChildren, stackSize, Node.size]
              exact pushChildren_injective guarded guarded'
                (keyOf_cases sameKey (separate_ne separate separate') (separate_ne separate' separate))
                (ih _ smaller _ _ guarded.pushChildren guarded'.pushChildren separate.pushChildren
                  separate'.pushChildren samePath rfl)

def Node.children : Node → List Node
  | .apply _ children => children
  | _ => []

/-- The nodes that a variable stands for. -/
def valueOf (smap : Variable → Option Node) (v : Variable) : List Node :=
  match smap v with
  | some x => if v.isList then x.children else [x]
  | none => [.var v]

mutual

def inst (smap : Variable → Option Node) : Node → List Node
  | .var v => valueOf smap v
  | .const c => [.const c]
  | .apply op children => [.apply op (insts smap children)]

def insts (smap : Variable → Option Node) : List Node → List Node
  | [] => []
  | node :: rest => inst smap node ++ insts smap rest

end

def instStack (smap : Variable → Option Node) : Stack → Stack
  | [] => []
  | none :: rest => none :: instStack smap rest
  | some n :: rest => (inst smap n).map some ++ instStack smap rest

variable {types : Types} {smap : Variable → Option Node}

theorem instStack_children (nodes : List Node) (rest : Stack)
    : instStack smap (nodes.map some ++ rest) = (insts smap nodes).map some ++ instStack smap rest := by
  induction nodes with
  | nil => rfl
  | cons node nodes ih =>
      rw [List.map_cons, List.cons_append, instStack, ih, insts, List.map_append, List.append_assoc]

theorem instStack_expand (op : Operator) (children : List Node) (rest : Stack)
    : instStack smap (expand op children rest) = expand op (insts smap children) (instStack smap rest) := by
  rw [expand, expand, instStack_children]
  split
  · rw [instStack]
  · rfl

theorem expand_append (op : Operator) (children : List Node) (rest rest' : Stack)
    : expand op children rest ++ rest' = expand op children (rest ++ rest') := by
  rw [expand, expand, List.append_assoc]
  split
  · rw [List.cons_append]
  · rfl

/-- Only list variables stand for any other number of nodes than one. -/
theorem length_inst {n : Node} (notList : ∀ v, n = .var v → v.isList = false)
    : (inst smap n).length = 1 := by
  cases n with
  | var v =>
      rw [inst, valueOf]
      split
      · rw [notList v rfl]
        rfl
      · rfl
  | const c => rw [inst, List.length_singleton]
  | apply op children => rw [inst, List.length_singleton]

theorem length_insts {nodes : List Node} (notList : ∀ v, .var v ∈ nodes → v.isList = false)
    : (insts smap nodes).length = nodes.length := by
  induction nodes with
  | nil => rfl
  | cons node nodes ih =>
      rw [insts, List.length_append, List.length_cons,
        length_inst (fun v isVar => notList v (isVar ▸ List.mem_cons_self ..)),
        ih (fun v member => notList v (List.mem_cons_of_mem _ member)), Nat.add_comm]

/-- Under an operator that is not n-ary there are as many arguments in an instance. -/
theorem length_insts_of_not_nary {op : Operator} {children : List Node}
    (lists : ListsUnderNary (.apply op children)) (notNary : isNAryKind op = false)
    : (insts smap children).length = children.length := by
  rw [ListsUnderNary] at lists
  refine length_insts (fun v member => ?_)
  by_contra isList
  obtain ⟨name, rfl⟩ := lists.1 v member (by simpa using isList)
  cases notNary

end Ava6.Expr.Nary
