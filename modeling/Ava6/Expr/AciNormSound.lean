import Ava6.Expr.AciNormValue

/-! Normal forms have the value of their term and are equal exactly for the same flattened children. -/

namespace Ava6.Expr.Aci

open Library

mutual

/-- The terms below all applications of a kind, without the neutral term. -/
def flat (k : Kind) (nt : Node) : Node → List Node
  | .leaf symbol => if .leaf symbol = nt then [] else [.leaf symbol]
  | .apply k' children =>
      if .apply k' children = nt then []
      else if k' = k then flats k nt children
      else [.apply k' children]

def flats (k : Kind) (nt : Node) : List Node → List Node
  | [] => []
  | node :: rest => flat k nt node ++ flats k nt rest

end

variable {k : Kind} {nt : Node}

theorem flats_append (front rest : List Node)
    : flats k nt (front ++ rest) = flats k nt front ++ flats k nt rest := by
  induction front with
  | nil => rfl
  | cons node front ih => rw [List.cons_append, flats, flats, ih, List.append_assoc]

theorem flat_neutral : flat k nt nt = [] := by
  cases nt with
  | leaf symbol => rw [flat, if_pos rfl]
  | apply k' children => rw [flat, if_pos rfl]

theorem flat_of_kind {n : Node} (notNull : n ≠ nt) (isKind : n.kind = some k)
    : flat k nt n = flats k nt n.children := by
  cases n with
  | leaf symbol => cases isKind
  | apply k' children => rw [flat, if_neg notNull, if_pos (Option.some.inj isKind)]; rfl

theorem flat_of_not_kind {n : Node} (notNull : n ≠ nt) (notKind : n.kind ≠ some k)
    : flat k nt n = [n] := by
  cases n with
  | leaf symbol => rw [flat, if_neg notNull]
  | apply k' children =>
      have different : k' ≠ k := fun same => notKind (by rw [same]; rfl)
      rw [flat, if_neg notNull, if_neg different]

/-- The loop collects the flattened terms. -/
theorem flattenLoop_eq (toProcess children : List Node)
    : flattenLoop k nt false toProcess children = children ++ flats k nt toProcess := by
  fun_induction flattenLoop k nt false toProcess children with
  | case1 children => rw [flats, List.append_nil]
  | case2 toProcess children ih => rw [ih, flats, flat_neutral, List.nil_append]
  | case3 cur toProcess children notNull isKind ih =>
      rw [ih, flats_append, flats, flat_of_kind notNull isKind]
  | case4 cur toProcess children notNull notKind isNew ih =>
      rw [ih, flats, flat_of_not_kind notNull notKind, List.append_assoc]
  | case5 cur toProcess children notNull notKind notNew ih => simp at notNew

/-- With idempotence it collects each of them once. -/
theorem flattenLoop_idempotent (toProcess children : List Node) (nodup : children.Nodup)
    : (flattenLoop k nt true toProcess children).Nodup
      ∧ ∀ n, n ∈ flattenLoop k nt true toProcess children
        ↔ n ∈ children ∨ n ∈ flats k nt toProcess := by
  fun_induction flattenLoop k nt true toProcess children with
  | case1 children => exact ⟨nodup, fun n => by simp [flats]⟩
  | case2 toProcess children ih =>
      rw [flats, flat_neutral, List.nil_append]
      exact ih nodup
  | case3 cur toProcess children notNull isKind ih =>
      rw [flats, flat_of_kind notNull isKind, ← flats_append]
      exact ih nodup
  | case4 cur toProcess children notNull notKind isNew ih =>
      have fresh : cur ∉ children := by simpa using isNew
      obtain ⟨resultNodup, members⟩ := ih (nodup.append (List.nodup_singleton cur) (by simpa using fresh))
      refine ⟨resultNodup, fun n => ?_⟩
      rw [members, flats, flat_of_not_kind notNull notKind, List.mem_append, List.mem_append, or_assoc]
  | case5 cur toProcess children notNull notKind notNew ih =>
      have known : cur ∈ children := by simpa using notNew
      obtain ⟨resultNodup, members⟩ := ih nodup
      refine ⟨resultNodup, fun n => ?_⟩
      rw [members, flats, flat_of_not_kind notNull notKind, List.mem_append, List.mem_singleton]
      constructor
      · exact fun either => either.imp id Or.inr
      · rintro (inside | rfl | later)
        · exact Or.inl inside
        · exact Or.inl known
        · exact Or.inr later

/-- The terms that flattening leaves are neither neutral nor of the kind. -/
theorem flats_not_kind (nodes : List Node)
    : ∀ n ∈ flats k nt nodes, n ≠ nt ∧ n.kind ≠ some k := by
  have loop : flattenLoop k nt false nodes [] = flats k nt nodes := flattenLoop_eq nodes []
  rw [← loop]
  suffices every : ∀ toProcess children : List Node,
      (∀ n ∈ children, n ≠ nt ∧ n.kind ≠ some k) →
      ∀ n ∈ flattenLoop k nt false toProcess children, n ≠ nt ∧ n.kind ≠ some k from
    every nodes [] (by simp)
  intro toProcess children known
  fun_induction flattenLoop k nt false toProcess children with
  | case1 children => exact known
  | case2 toProcess children ih => exact ih known
  | case3 cur toProcess children notNull isKind ih => exact ih known
  | case4 cur toProcess children notNull notKind isNew ih =>
      refine ih (fun n member => ?_)
      rcases List.mem_append.mp member with old | new
      · exact known n old
      · rw [List.mem_singleton.mp new]
        exact ⟨notNull, notKind⟩
  | case5 cur toProcess children notNull notKind notNew ih => exact ih known

variable {E U : Type} {tn : TypeNode} {m : MonoidOn (Value E U)} (I : Interpretation E U)

/-- An application that fits as an argument is a product of the same operation. -/
theorem eval_of_kind {n : Node} (isOp : operation k tn = some m) (fits : Fits k tn n)
    (isKind : n.kind = some k)
    : I.eval n = m.product (n.children.map I.eval) ∧ ∀ c ∈ n.children, Fits k tn c := by
  cases n with
  | leaf symbol => cases isKind
  | apply k' children =>
      cases isKind
      have sameOp : operation k (Node.apply k children).type = some m :=
        (operation_congr fits.2).trans isOp
      have hasNull := operation_isSome_iff.mp (Option.isSome_of_eq_some sameOp)
      refine ⟨?_, fun c member => ?_⟩
      · rw [Interpretation.eval, sameOp, Interpretation.evals_eq_map]
        rfl
      · obtain ⟨wellTyped, argFits⟩ := wellTyped_apply fits.1 hasNull c member
        refine ⟨wellTyped, ?_⟩
        cases k with
        | bitvectorAnd | bitvectorOr | bitvectorXor | stringConcat =>
            exact (argFits : c.type = _).trans fits.2
        | or | and | regexpUnion | regexpInter | regexpConcat | bitvectorConcat => exact argFits

/-- Flattening keeps products. -/
theorem product_flats (isOp : operation k tn = some m) (isNull : getNullTerminator k tn = some nt)
    (nodes : List Node) (fits : ∀ n ∈ nodes, Fits k tn n)
    : m.product ((flats k nt nodes).map I.eval) = m.product (nodes.map I.eval)
      ∧ ∀ n ∈ flats k nt nodes, Fits k tn n := by
  suffices every : ∀ toProcess children : List Node,
      (∀ n ∈ toProcess, Fits k tn n) → (∀ n ∈ children, Fits k tn n) →
      m.product ((flattenLoop k nt false toProcess children).map I.eval)
        = m.op (m.product (children.map I.eval)) (m.product (toProcess.map I.eval))
      ∧ ∀ n ∈ flattenLoop k nt false toProcess children, Fits k tn n by
    have result := every nodes [] fits (by simp)
    rw [flattenLoop_eq, List.nil_append] at result
    refine ⟨result.1.trans ?_, result.2⟩
    exact m.neutral_op (MonoidOn.product_mem (all_of_fits I isOp fits))
  intro toProcess children fitsProcess fitsChildren
  have all (nodes : List Node) (fits : ∀ n ∈ nodes, Fits k tn n) : m.All (nodes.map I.eval) :=
    all_of_fits I isOp fits
  fun_induction flattenLoop k nt false toProcess children with
  | case1 children =>
      exact ⟨(m.op_neutral (MonoidOn.product_mem (all _ fitsChildren))).symm, fitsChildren⟩
  | case2 toProcess children ih =>
      obtain ⟨_, fitsRest⟩ := List.forall_mem_cons.mp fitsProcess
      obtain ⟨isProduct, fitsResult⟩ := ih fitsRest fitsChildren
      rw [List.map_cons, MonoidOn.product_cons, eval_nullTerminator I isOp isNull,
        m.neutral_op (MonoidOn.product_mem (all _ fitsRest))]
      exact ⟨isProduct, fitsResult⟩
  | case3 cur toProcess children notNull isKind ih =>
      obtain ⟨fitsCur, fitsRest⟩ := List.forall_mem_cons.mp fitsProcess
      obtain ⟨isValue, fitsArgs⟩ := eval_of_kind I isOp fitsCur isKind
      obtain ⟨isProduct, fitsResult⟩ := ih (fun n member => (List.mem_append.mp member).elim
        (fitsArgs n) (fitsRest n)) fitsChildren
      rw [List.map_append, MonoidOn.product_append (all _ fitsArgs) (all _ fitsRest), ← isValue]
        at isProduct
      exact ⟨isProduct, fitsResult⟩
  | case4 cur toProcess children notNull notKind isNew ih =>
      obtain ⟨fitsCur, fitsRest⟩ := List.forall_mem_cons.mp fitsProcess
      have fitsOne : ∀ n ∈ [cur], Fits k tn n := by simpa using fitsCur
      obtain ⟨isProduct, fitsResult⟩ := ih fitsRest (fun n member => (List.mem_append.mp member).elim
        (fitsChildren n) (fitsOne n))
      have memCur : m.carrier (I.eval cur) := carrier_of_fits I isOp fitsCur
      rw [List.map_append, MonoidOn.product_append (all _ fitsChildren) (all _ fitsOne), List.map_cons,
        List.map_nil, MonoidOn.product_singleton memCur,
        m.op_assoc (MonoidOn.product_mem (all _ fitsChildren)) memCur
          (MonoidOn.product_mem (all _ fitsRest))] at isProduct
      exact ⟨isProduct, fitsResult⟩
  | case5 cur toProcess children notNull notKind notNew ih => simp at notNew

theorem commutative_of_isAssocCommIdem (isOp : operation k tn = some m) (aci : isAssocCommIdem k = true)
    : m.Commutative := by
  cases k with
  | or | and =>
      cases isOp
      exact fun _ _ => congrArg Value.bool (by first | exact Bool.or_comm .. | exact Bool.and_comm ..)
  | regexpUnion =>
      cases isOp
      exact fun _ _ => congrArg Value.language (add_comm ..)
  | regexpInter =>
      cases isOp
      exact fun _ _ => congrArg Value.language (inf_comm ..)
  | bitvectorAnd | bitvectorOr =>
      cases tn <;> simp only [operation, reduceCtorEq, Option.some.injEq] at isOp
      subst isOp
      exact fun _ _ => congrArg Value.bits (List.zipWith_comm_of_comm
        (by first | exact Bool.or_comm | exact Bool.and_comm))
  | bitvectorXor | bitvectorConcat | stringConcat | regexpConcat => cases aci

theorem idempotent_of_isAssocCommIdem (isOp : operation k tn = some m) (aci : isAssocCommIdem k = true)
    : m.Idempotent := by
  cases k with
  | or | and =>
      cases isOp
      rintro _ ⟨b, rfl⟩
      exact congrArg Value.bool (by first | exact Bool.or_self b | exact Bool.and_self b)
  | regexpUnion =>
      cases isOp
      rintro _ ⟨words, rfl⟩
      exact congrArg Value.language (sup_idem words)
  | regexpInter =>
      cases isOp
      rintro _ ⟨words, rfl⟩
      exact congrArg Value.language (inf_idem words)
  | bitvectorAnd | bitvectorOr =>
      cases tn <;> simp only [operation, reduceCtorEq, Option.some.injEq] at isOp
      subst isOp
      rintro _ ⟨digits, rfl, -⟩
      refine congrArg Value.bits (List.ext_getElem (by simp [Value.asBits]) (fun i _ _ => ?_))
      simp [Value.asBits]
  | bitvectorXor | bitvectorConcat | stringConcat | regexpConcat => cases aci

theorem commutative_of_isAssocComm (isOp : operation k tn = some m) (ac : isAssocComm k = true)
    : m.Commutative := by
  cases (beq_iff_eq.mp ac : k = .bitvectorXor)
  cases tn <;> simp only [operation, reduceCtorEq, Option.some.injEq] at isOp
  subst isOp
  exact fun _ _ => congrArg Value.bits (List.zipWith_comm_of_comm Bool.xor_comm)

/-- Equal as sets, as multisets or as sequences. -/
def SameTerms (k : Kind) (front rest : List Node) : Prop :=
  if isAssocCommIdem k then ∀ n, n ∈ front ↔ n ∈ rest
  else if isAssocComm k then front.Perm rest
  else front = rest

/-- The children of a normal form. -/
def normalChildren (id : Node → Nat) (k : Kind) (nt : Node) (children : List Node) : List Node :=
  let flat := flattenLoop k nt (isAssocCommIdem k) children []
  if isAssocComm k || isAssocCommIdem k then sortNodes id flat else flat

theorem sortNodes_perm (id : Node → Nat) (nodes : List Node) : (sortNodes id nodes).Perm nodes :=
  List.mergeSort_perm ..

theorem sortNodes_eq {id : Node → Nat} (injective : Function.Injective id) {front rest : List Node}
    (perm : front.Perm rest)
    : sortNodes id front = sortNodes id rest := by
  have sorted (nodes : List Node) : (sortNodes id nodes).Pairwise (fun a b => id a ≤ id b) := by
    have pairwise : (sortNodes id nodes).Pairwise (fun a b => decide (id a ≤ id b) = true) :=
      List.pairwise_mergeSort (by simpa using fun a b c => Nat.le_trans)
        (by simpa using fun a b => Nat.le_total (id a) (id b)) nodes
    simpa using pairwise
  have perm' : (sortNodes id front).Perm (sortNodes id rest) :=
    (sortNodes_perm id front).trans (perm.trans (sortNodes_perm id rest).symm)
  exact perm'.eq_of_pairwise (fun a b _ _ le ge => injective (Nat.le_antisymm le ge)) (sorted front)
    (sorted rest)

variable {id : Node → Nat} {children : List Node}

theorem normalChildren_same : SameTerms k (normalChildren id k nt children) (flats k nt children) := by
  have nodup : ([] : List Node).Nodup := List.nodup_nil
  rw [SameTerms, normalChildren]
  cases aci : isAssocCommIdem k with
  | true =>
      simp only [if_true, Bool.or_true]
      intro n
      rw [(sortNodes_perm id _).mem_iff, (flattenLoop_idempotent children [] nodup).2 n]
      simp
  | false =>
      simp only [if_false, Bool.or_false, Bool.false_eq_true, flattenLoop_eq, List.nil_append]
      cases ac : isAssocComm k with
      | true => simpa using sortNodes_perm id _
      | false => simp

theorem product_of_sameTerms (isOp : operation k tn = some m) {front rest : List Node}
    (same : SameTerms k front rest) (fits : ∀ n ∈ front, Fits k tn n)
    : m.product (front.map I.eval) = m.product (rest.map I.eval) := by
  rw [SameTerms] at same
  split at same
  · next aci =>
      refine MonoidOn.product_congr (commutative_of_isAssocCommIdem isOp aci)
        (idempotent_of_isAssocCommIdem isOp aci) (all_of_fits I isOp fits) (fun v => ?_)
      simp only [List.mem_map, same]
  · split at same
    · next ac =>
        exact MonoidOn.product_perm (commutative_of_isAssocComm isOp ac) (same.map _)
          (all_of_fits I isOp fits)
    · rw [same]

theorem SameTerms.mem_iff {front rest : List Node} (same : SameTerms k front rest) (n : Node)
    : n ∈ front ↔ n ∈ rest := by
  rw [SameTerms] at same
  split at same
  · exact same n
  · split at same
    · exact same.mem_iff
    · rw [same]

theorem computeNormalForm_apply {a : Node} (isA : a = .apply k children)
    (isNull : getNullTerminator k a.type = some nt)
    : computeNormalForm id a = mkNormal k nt (normalChildren id k nt children) := by
  subst isA
  rw [computeNormalForm]
  simp only [isNull]
  rfl

theorem computeNormalForm_none {a : Node} (isA : a = .apply k children)
    (noNull : getNullTerminator k a.type = none)
    : computeNormalForm id a = a := by
  subst isA
  rw [computeNormalForm]
  simp only [noNull]

/-- An application to arguments that fit has the product of their values. -/
theorem eval_apply {first second : Node} {rest : List Node} (isOp : operation k tn = some m)
    (fits : ∀ n ∈ first :: second :: rest, Fits k tn n)
    : I.eval (.apply k (first :: second :: rest))
      = m.product ((first :: second :: rest).map I.eval) := by
  have sameOp : operation k (Node.apply k (first :: second :: rest)).type = some m := by
    cases k with
    | or | and | regexpUnion | regexpInter | regexpConcat | bitvectorConcat => exact isOp
    | bitvectorAnd | bitvectorOr | bitvectorXor | stringConcat =>
        have isType : TypeNode.common (Node.types (first :: second :: rest)) = tn := by
          refine TypeNode.common_of_all_eq (by simp [Node.types]) (fun t member => ?_)
          rw [types_eq_map] at member
          obtain ⟨n, isArg, rfl⟩ := List.mem_map.mp member
          exact (fits n isArg).2
        rw [Node.type, isType]
        exact isOp
  rw [Interpretation.eval, sameOp, Interpretation.evals_eq_map]

theorem eval_mkNormal (isOp : operation k tn = some m) (isNull : getNullTerminator k tn = some nt)
    {nodes : List Node} (fits : ∀ n ∈ nodes, Fits k tn n)
    : I.eval (mkNormal k nt nodes) = m.product (nodes.map I.eval) := by
  match nodes with
  | [] => exact eval_nullTerminator I isOp isNull
  | [child] =>
      exact (MonoidOn.product_singleton
        (carrier_of_fits I isOp (fits child (List.mem_cons_self ..)))).symm
  | first :: second :: rest => exact eval_apply I isOp fits

/-- A term has the value of its normal form. -/
theorem eval_computeNormalForm {a : Node} (wellTyped : WellTyped a)
    : I.eval (computeNormalForm id a) = I.eval a := by
  cases isA : a with
  | leaf symbol => rw [computeNormalForm]
  | apply k children =>
      rw [← isA]
      cases isNull : getNullTerminator k a.type with
      | none => rw [computeNormalForm_none isA isNull]
      | some nt =>
          have hasOp : (operation k a.type : Option (MonoidOn (Value E U))).isSome :=
            operation_isSome_iff.mpr (Option.isSome_of_eq_some isNull)
          obtain ⟨m, isOp⟩ := Option.isSome_iff_exists.mp hasOp
          have fits : ∀ n ∈ children, Fits k a.type n := by
            rw [isA] at wellTyped isNull ⊢
            exact wellTyped_apply wellTyped (Option.isSome_of_eq_some isNull)
          obtain ⟨sameProduct, fitsFlats⟩ := product_flats I isOp isNull children fits
          have same : SameTerms k (normalChildren id k nt children) (flats k nt children) :=
            normalChildren_same
          have fitsNormal : ∀ n ∈ normalChildren id k nt children, Fits k a.type n :=
            fun n member => fitsFlats n ((same.mem_iff n).mp member)
          rw [computeNormalForm_apply isA isNull, eval_mkNormal I isOp isNull fitsNormal,
            product_of_sameTerms I isOp same fitsNormal, sameProduct, isA, Interpretation.eval, ← isA,
            isOp, Interpretation.evals_eq_map]

/-- The term of a list of terms that are neither neutral nor of the kind determines the list. -/
theorem mkNormal_injective {front rest : List Node} (notNullKind : nt.kind ≠ some k)
    (left : ∀ n ∈ front, n ≠ nt ∧ n.kind ≠ some k) (right : ∀ n ∈ rest, n ≠ nt ∧ n.kind ≠ some k)
    (same : mkNormal k nt front = mkNormal k nt rest)
    : front = rest := by
  match front, rest with
  | [], [] => rfl
  | [], [n] => exact absurd same.symm (right n (List.mem_cons_self ..)).1
  | [], _ :: _ :: _ => exact absurd (congrArg Node.kind same) notNullKind
  | [n], [] => exact absurd same (left n (List.mem_cons_self ..)).1
  | [n], [n'] => rw [show n = n' from same]
  | [n], _ :: _ :: _ => exact absurd (congrArg Node.kind same) (left n (List.mem_cons_self ..)).2
  | _ :: _ :: _, [] => exact absurd (congrArg Node.kind same).symm notNullKind
  | _ :: _ :: _, [n] =>
      exact absurd (congrArg Node.kind same).symm (right n (List.mem_cons_self ..)).2
  | _ :: _ :: _, _ :: _ :: _ => exact (Node.apply.inj same).2

theorem getNullTerminator_kind (isNull : getNullTerminator k tn = some nt) : nt.kind = none := by
  cases k <;> cases tn <;> simp only [getNullTerminator, reduceCtorEq, Option.some.injEq] at isNull <;>
    subst isNull <;> rfl

theorem SameTerms.trans {first second third : List Node} (same : SameTerms k first second)
    (same' : SameTerms k second third)
    : SameTerms k first third := by
  rw [SameTerms] at same same' ⊢
  split at same
  · next aci => simp only [aci, if_true, same] at same' ⊢; exact same'
  · next notAci =>
      split at same
      · next ac => simp only [notAci, ac, if_true] at same' ⊢; exact same.trans same'
      · next notAc => simp only [notAci, notAc] at same' ⊢; exact same.trans same'

theorem SameTerms.symm {first second : List Node} (same : SameTerms k first second)
    : SameTerms k second first := by
  rw [SameTerms] at same ⊢
  split at same
  · next aci => simp only [aci, if_true]; exact fun n => (same n).symm
  · next notAci =>
      split at same
      · next ac => simp only [notAci, ac, if_true]; exact same.symm
      · next notAc => simp only [notAci, notAc]; exact same.symm

/-- Normal forms are equal exactly if the flattened children are the same. -/
theorem normalChildren_eq_iff (injective : Function.Injective id) {others : List Node}
    : normalChildren id k nt children = normalChildren id k nt others
      ↔ SameTerms k (flats k nt children) (flats k nt others) := by
  have same : SameTerms k (normalChildren id k nt children) (flats k nt children) := normalChildren_same
  have same' : SameTerms k (normalChildren id k nt others) (flats k nt others) := normalChildren_same
  constructor
  · intro equal
    rw [equal] at same
    exact same.symm.trans same'
  · intro sameFlats
    rw [SameTerms] at sameFlats
    rw [normalChildren, normalChildren]
    cases aci : isAssocCommIdem k with
    | true =>
        obtain ⟨nodup, members⟩ := flattenLoop_idempotent children [] List.nodup_nil
        obtain ⟨nodup', members'⟩ := flattenLoop_idempotent others [] List.nodup_nil
        simp only [aci, if_true] at sameFlats
        simp only [Bool.or_true, if_true]
        refine sortNodes_eq injective ((List.perm_ext_iff_of_nodup nodup nodup').mpr (fun n => ?_))
        rw [members, members', sameFlats]
    | false =>
        simp only [aci, Bool.false_eq_true, if_false] at sameFlats
        simp only [Bool.or_false, flattenLoop_eq, List.nil_append]
        cases ac : isAssocComm k with
        | true =>
            simp only [ac, if_true] at sameFlats ⊢
            exact sortNodes_eq injective sameFlats
        | false =>
            simp only [ac, Bool.false_eq_true, if_false] at sameFlats ⊢
            exact sameFlats

/-- Terms of the same kind and type have equal normal forms exactly if their flattened children are
the same. -/
theorem computeNormalForm_eq_iff (injective : Function.Injective id) {others : List Node}
    (sameType : (Node.apply k children).type = (Node.apply k others).type)
    (isNull : getNullTerminator k (Node.apply k children).type = some nt)
    : computeNormalForm id (.apply k children) = computeNormalForm id (.apply k others)
      ↔ SameTerms k (flats k nt children) (flats k nt others) := by
  have isNull' : getNullTerminator k (Node.apply k others).type = some nt := sameType ▸ isNull
  have notNullKind : nt.kind ≠ some k := by
    rw [getNullTerminator_kind isNull]
    nofun
  have plain (nodes : List Node) : ∀ n ∈ normalChildren id k nt nodes, n ≠ nt ∧ n.kind ≠ some k := by
    intro n member
    have same : SameTerms k (normalChildren id k nt nodes) (flats k nt nodes) := normalChildren_same
    exact flats_not_kind nodes n ((same.mem_iff n).mp member)
  rw [computeNormalForm_apply rfl isNull, computeNormalForm_apply rfl isNull',
    ← normalChildren_eq_iff injective]
  exact ⟨mkNormal_injective notNullKind (plain children) (plain others), congrArg _⟩

end Ava6.Expr.Aci
