import Mathlib.SetTheory.Cardinal.Order
import Ava6.Arrays.RewriterConstants

/-! The rewriter of the theory of arrays keeps the meaning of nodes: it reads through the stores, and moves stores
below others, only where the indices are known to be different.
-/

namespace Ava6.Arrays

open ArrayNode

variable [LinearOrder Node]

/-- A set of nodes with their children. -/
structure Closed (known : Set Node) : Prop where
  storeAll : ∀ {t v}, .storeAll t v ∈ known → v ∈ known
  select : ∀ {a i}, .select a i ∈ known → a ∈ known ∧ i ∈ known
  store : ∀ {a i v}, .store a i v ∈ known → a ∈ known ∧ i ∈ known ∧ v ∈ known
  equal : ∀ {a b}, .equal a b ∈ known → a ∈ known ∧ b ∈ known

/-- What the rewriter relies on, for a set of nodes: equalities are rewritten to equivalent ones, distinct constants
have distinct values, and the constants of a finite sort are enumerated. -/
structure Relied (I : Interpretation) (sorts : Sorts) (mkEqNode : Node → Node → Node) (known : Set Node)
    : Prop where
  equality : ∀ a ∈ known, ∀ b ∈ known, ∀ t, a.getType = some t → b.getType = some t
    → (mkEqNode a b).eval I = (Node.equal a b).eval I
  distinct : ∀ a ∈ known, ∀ b ∈ known, ∀ t, a.getType = some t → b.getType = some t
    → a.isConst sorts = true → b.isConst sorts = true → a.eval I = b.eval I → a = b
  cardinality : ∀ t card, sorts.cardinality t = some card
    → card = (sorts.enumerate t).length ∧ (sorts.enumerate t).Nodup
  enumerated : ∀ t, ∀ n ∈ sorts.enumerate t, n ∈ known ∧ n.getType = some t ∧ n.isConst sorts = true
  complete : ∀ t card, sorts.cardinality t = some card → ∀ x : Value I.carrier, x.type = t
    → ∃ n ∈ sorts.enumerate t, n.eval I = x

variable {I : Interpretation} {sorts : Sorts} {mkEqNode : Node → Node → Node} {known : Set Node}

-- Constant arrays

/-- A known constant of a type. -/
structure IsConstant (sorts : Sorts) (known : Set Node) (t : TypeNode) (n : Node) : Prop where
  isKnown : n ∈ known
  typed : n.getType = some t
  isConst : n.isConst sorts = true

/-- A chain of known constants. -/
structure IsChain (sorts : Sorts) (known : Set Node) (t e : TypeNode) (m : ArrayNode Node Node) : Prop where
  entries : ∀ entry ∈ m.entries, IsConstant sorts known t entry.1 ∧ IsConstant sorts known e entry.2
  defaultValue : IsConstant sorts known e m.defaultValue

variable {t e : TypeNode} {m : ArrayNode Node Node}

theorem IsChain.below {i v : Node} (isChain : IsChain sorts known t e (.store m i v)) : IsChain sorts known t e m :=
  ⟨fun entry member => isChain.entries entry (List.mem_cons_of_mem _ member), isChain.defaultValue⟩

theorem IsChain.getType (isChain : IsChain sorts known t e m)
    : (ofChain t m).getType = some (.array t e) := by
  induction m with
  | storeAll value => exact Node.getType_storeAll_iff.mpr ⟨e, rfl, isChain.defaultValue.typed⟩
  | store m i v ih =>
      obtain ⟨isIndex, isValue⟩ := isChain.entries (i, v) List.mem_cons_self
      exact Node.getType_store_iff.mpr ⟨t, e, rfl, ih isChain.below, isIndex.typed, isValue.typed⟩

theorem IsChain.fits {i v : Node} (isChain : IsChain sorts known t e (.store m i v))
    : ((ofChain t m).eval I).Fits (i.eval I) (v.eval I) :=
  Node.fits_of_store I isChain.getType

/-- A constant array at the value of a constant. -/
theorem IsChain.select_constant (isChain : IsChain sorts known t e m) (relied : Relied I sorts mkEqNode known)
    {i : Node} (isIndex : IsConstant sorts known t i)
    : ((ofChain t m).eval I).select (i.eval I) = (m.denote i).eval I := by
  induction m with
  | storeAll value =>
      have indexType : (i.eval I).type = t := Node.type_eval I isIndex.typed
      rw [ofChain, Node.eval, ← indexType, Value.select_storeAll]
      rfl
  | store m j v ih =>
      obtain ⟨isStored, -⟩ := isChain.entries (j, v) List.mem_cons_self
      have fits : ((ofChain t m).eval I).Fits (j.eval I) (v.eval I) := isChain.fits
      rw [ofChain, Node.eval, ArrayNode.denote]
      by_cases same : i = j
      · rw [same, Function.update_self, Value.select_store_self fits]
      · have differ : j.eval I ≠ i.eval I := fun sameValue => same (relied.distinct j isStored.isKnown i
          isIndex.isKnown t isStored.typed isIndex.typed isStored.isConst isIndex.isConst sameValue).symm
        have sameType : (j.eval I).type = (i.eval I).type := by
          rw [Node.type_eval I isStored.typed, Node.type_eval I isIndex.typed]
        rw [Function.update_of_ne same, Value.select_store_of_ne fits sameType differ, ih isChain.below]

/-- A constant array at a value that is not stored to. -/
theorem IsChain.select_other (isChain : IsChain sorts known t e m) {x : Value I.carrier} (isType : x.type = t)
    (differs : ∀ entry ∈ m.entries, entry.1.eval I ≠ x)
    : ((ofChain t m).eval I).select x = m.defaultValue.eval I := by
  induction m with
  | storeAll value =>
      rw [ofChain, Node.eval, ← isType, Value.select_storeAll]
      rfl
  | store m j v ih =>
      obtain ⟨isStored, -⟩ := isChain.entries (j, v) List.mem_cons_self
      have fits : ((ofChain t m).eval I).Fits (j.eval I) (v.eval I) := isChain.fits
      have sameType : (j.eval I).type = x.type := by rw [Node.type_eval I isStored.typed, isType]
      have notHere : j.eval I ≠ x := differs (j, v) List.mem_cons_self
      rw [ofChain, Node.eval, Value.select_store_of_ne fits sameType notHere,
        ih isChain.below (fun entry member => differs entry (List.mem_cons_of_mem _ member))]
      rfl

theorem sorted_chain {array : Node} (accepted : array.isConst sorts = true) (isChain : array.chain = some m)
    : m.Sorted := by
  cases array with
  | storeAll index value =>
      obtain rfl := Option.some.inj isChain
      exact List.Pairwise.nil
  | store array index value =>
      rw [Node.isConst, Bool.and_eq_true, isChain, Option.any_some] at accepted
      exact sorted_of_isConst m accepted.2
  | constBoolean _ | constant _ _ | term _ _ | select _ _ | equal _ _ => cases isChain

/-- The chain of a constant array. -/
theorem chain_of_isConst {array : Node} (closed : Closed known)
    (isConstant : IsConstant sorts known (.array t e) array)
    : ∃ m, array.chain = some m ∧ array = ofChain t m ∧ IsChain sorts known t e m := by
  obtain ⟨isKnown, typed, accepted⟩ := isConstant
  induction array with
  | storeAll index value _ =>
      obtain ⟨element, isArray, valueType⟩ := Node.getType_storeAll_iff.mp typed
      obtain ⟨rfl, rfl⟩ := TypeNode.array.inj isArray
      exact ⟨.storeAll value, rfl, rfl, nofun, closed.storeAll isKnown, valueType, accepted⟩
  | store array index value ih _ _ =>
      obtain ⟨index', element, isArray, arrayType, indexType, valueType⟩ := Node.getType_store_iff.mp typed
      obtain ⟨rfl, rfl⟩ := TypeNode.array.inj isArray
      obtain ⟨knownArray, knownIndex, knownValue⟩ := closed.store isKnown
      rw [Node.isConst, Bool.and_eq_true, Bool.and_eq_true, Bool.and_eq_true] at accepted
      obtain ⟨⟨⟨constArray, constIndex⟩, constValue⟩, -⟩ := accepted
      obtain ⟨m, isChain, isArray, below⟩ := ih knownArray arrayType constArray
      refine ⟨.store m index value, ?_, ?_, fun entry member => ?_, below.defaultValue⟩
      · rw [Node.chain, isChain, Option.map_some]
      · rw [ofChain, ← isArray]
      · rcases List.mem_cons.mp member with rfl | old
        · exact ⟨⟨knownIndex, indexType, constIndex⟩, ⟨knownValue, valueType, constValue⟩⟩
        · exact below.entries entry old
  | constBoolean _ | constant _ _ => cases typed
  | term _ _ | select _ _ | equal _ _ => cases accepted

/-- What is known of the result of normalising a store makes it a chain of constants. -/
theorem isChain_of_known {r : ArrayNode Node Node} {index value : Node} (isChain : IsChain sorts known t e m)
    (isIndex : IsConstant sorts known t index) (isValue : IsConstant sorts known e value)
    (enumerated : ∀ n ∈ sorts.enumerate t, IsConstant sorts known t n)
    (isKnown : Known m index value (sorts.enumerate t) r)
    : IsChain sorts known t e r := by
  have values (v : Node) (member : v ∈ value :: m.defaultValue :: m.entries.map Prod.snd)
      : IsConstant sorts known e v := by
    rcases List.mem_cons.mp member with rfl | rest
    · exact isValue
    · rcases List.mem_cons.mp rest with rfl | stored
      · exact isChain.defaultValue
      · obtain ⟨entry, inEntries, rfl⟩ := List.mem_map.mp stored
        exact (isChain.entries entry inEntries).2
  refine ⟨fun entry member => ⟨?_, values _ (isKnown.values entry member)⟩, values _ isKnown.defaultValue⟩
  rcases List.mem_append.mp (isKnown.indices entry member) with old | isNew
  · rcases List.mem_cons.mp old with here | stored
    · rw [here]
      exact isIndex
    · obtain ⟨entry', inEntries, same⟩ := List.mem_map.mp stored
      rw [← same]
      exact (isChain.entries entry' inEntries).1
  · exact enumerated entry.1 isNew

theorem normalizeConstant_sound {array index value : Node} (closed : Closed known)
    (relied : Relied I sorts mkEqNode known) (isArray : IsConstant sorts known (.array t e) array)
    (isIndex : IsConstant sorts known t index) (isValue : IsConstant sorts known e value)
    : ∃ n, TheoryArraysRewriter.normalizeConstant sorts array index value = some n
      ∧ n.eval I = (Node.store array index value).eval I := by
  obtain ⟨m, isChain, rfl, isChainM⟩ := chain_of_isConst closed isArray
  have sorted := sorted_chain isArray.isConst isChain
  obtain ⟨r, isNormal, -, denotes, sameDefault, isKnown⟩ := normalizeConstant_denotes
    (fun card isCard => (relied.cardinality t card isCard).1)
    (fun finite => by
      obtain ⟨card, isCard⟩ := Option.ne_none_iff_exists'.mp finite
      exact (relied.cardinality t card isCard).2)
    sorted index value
  have isChainR : IsChain sorts known t e r := by
    refine isChain_of_known isChainM isIndex isValue (fun n member => ?_) isKnown
    obtain ⟨inKnown, typed, isConst⟩ := relied.enumerated t n member
    exact ⟨inKnown, typed, isConst⟩
  have isChainStore : IsChain sorts known t e (.store m index value) := by
    refine ⟨fun entry member => ?_, isChainM.defaultValue⟩
    rcases List.mem_cons.mp member with rfl | old
    · exact ⟨isIndex, isValue⟩
    · exact isChainM.entries entry old
  refine ⟨ofChain t r, ?_, ?_⟩
  · rw [TheoryArraysRewriter.normalizeConstant, isIndex.typed, isChain]
    simp only [Option.bind_eq_bind, Option.bind_some, isNormal]
    rfl
  · have sameType : ((Node.store (ofChain t m) index value).eval I).type = ((ofChain t r).eval I).type := by
      rw [Node.type_eval I isChainR.getType]
      exact Node.type_eval I isChainStore.getType
    refine Value.ext_select (Node.type_eval I isChainR.getType) sameType (fun x isType => ?_)
    have atConstant (i : Node) (isI : IsConstant sorts known t i)
        (agree : r.denote i = (ArrayNode.store m index value).denote i)
        : ((ofChain t r).eval I).select (i.eval I)
          = ((Node.store (ofChain t m) index value).eval I).select (i.eval I) := by
      rw [isChainR.select_constant relied isI, agree]
      exact (isChainStore.select_constant relied isI).symm
    cases isCard : sorts.cardinality t with
    | some card =>
        obtain ⟨i, member, rfl⟩ := relied.complete t card isCard x isType
        obtain ⟨inKnown, typed, isConst⟩ := relied.enumerated t i member
        exact atConstant i ⟨inKnown, typed, isConst⟩ (denotes i (Or.inr member))
    | none =>
        by_cases isNamed : ∃ i, IsConstant sorts known t i ∧ i.eval I = x
        · obtain ⟨i, isI, rfl⟩ := isNamed
          exact atConstant i isI (denotes i (Or.inl isCard))
        · have unnamed (i : Node) (isI : IsConstant sorts known t i) : i.eval I ≠ x :=
            fun same => isNamed ⟨i, isI, same⟩
          rw [isChainR.select_other isType (fun entry member => unnamed _ (isChainR.entries entry member).1),
            sameDefault isCard]
          exact (isChainStore.select_other isType
            (fun entry member => unnamed _ (isChainStore.entries entry member).1)).symm

namespace TheoryArraysRewriter

/-- A known node of a type. -/
structure IsTerm (known : Set Node) (t : TypeNode) (n : Node) : Prop where
  isKnown : n ∈ known
  typed : n.getType = some t

variable {index stored : Node} {verdict : Bool}

theorem eval_of_constBoolean? (relied : Relied I sorts mkEqNode known) (isIndex : IsTerm known t index)
    (isStored : IsTerm known t stored) (answer : constBoolean? (mkEqNode stored index) = some verdict)
    : verdict = true ↔ index.eval I = stored.eval I := by
  have sound := relied.equality stored isStored.isKnown index isIndex.isKnown t isStored.typed isIndex.typed
  generalize mkEqNode stored index = equality at sound answer
  cases equality with
  | constBoolean value =>
      obtain rfl := Option.some.inj answer
      have same : (value = true) = (stored.eval I = index.eval I) := eq_of_heq (Value.mk.inj sound).2
      rw [same]
      exact eq_comm
  | _ => cases answer

theorem compareIndices_sound (relied : Relied I sorts mkEqNode known) (isIndex : IsTerm known t index)
    (isStored : IsTerm known t stored) (answer : compareIndices sorts mkEqNode index stored = some verdict)
    : verdict = true ↔ index.eval I = stored.eval I := by
  rw [compareIndices] at answer
  split at answer
  · next same =>
      obtain rfl := Option.some.inj answer
      rw [same]
      exact ⟨fun _ => rfl, fun _ => rfl⟩
  · next differ =>
      split at answer
      · next areConst =>
          obtain rfl := Option.some.inj answer
          obtain ⟨constIndex, constStored⟩ := Bool.and_eq_true_iff.mp areConst
          refine ⟨nofun, fun same => absurd ?_ differ⟩
          exact relied.distinct index isIndex.isKnown stored isStored.isKnown t isIndex.typed isStored.typed
            constIndex constStored same
      · exact eval_of_constBoolean? relied isIndex isStored answer

theorem compareIndices_of_syntactic (answer : compareSyntactic sorts index stored = some verdict)
    : compareIndices sorts mkEqNode index stored = some verdict := by
  rw [compareSyntactic] at answer
  rw [compareIndices]
  split at answer
  · next same => rwa [if_pos same]
  · next differ =>
      split at answer
      · next areConst => rwa [if_neg differ, if_pos areConst]
      · cases answer

/-- What reading an array at an index gives. -/
def Reads (I : Interpretation) (known : Set Node) (t e : TypeNode) (array index : Node) : Walk → Prop
  | .found value => value.eval I = (Node.select array index).eval I
  | .stopped below _ => IsTerm known (.array t e) below
      ∧ (Node.select below index).eval I = (Node.select array index).eval I

omit [LinearOrder Node] in
theorem IsTerm.store {array value : Node} (closed : Closed known)
    (isTerm : IsTerm known (.array t e) (.store array stored value))
    : IsTerm known (.array t e) array ∧ IsTerm known t stored ∧ IsTerm known e value := by
  obtain ⟨index', element, isArray, arrayType, indexType, valueType⟩ := Node.getType_store_iff.mp isTerm.typed
  obtain ⟨rfl, rfl⟩ := TypeNode.array.inj isArray
  obtain ⟨knownArray, knownIndex, knownValue⟩ := closed.store isTerm.isKnown
  exact ⟨⟨knownArray, arrayType⟩, ⟨knownIndex, indexType⟩, ⟨knownValue, valueType⟩⟩

omit [LinearOrder Node] in
/-- Reading at the index of a store. -/
theorem select_same {array value : Node} (typed : (Node.store array stored value).getType = some (.array t e))
    (same : index.eval I = stored.eval I)
    : value.eval I = (Node.select (.store array stored value) index).eval I := by
  rw [Node.eval, Node.eval, same, Value.select_store_self (Node.fits_of_store I typed)]

omit [LinearOrder Node] in
/-- Reading at another index. -/
theorem select_differ {array value : Node} (typed : (Node.store array stored value).getType = some (.array t e))
    (isIndex : IsTerm known t index) (differ : index.eval I ≠ stored.eval I)
    : (Node.select array index).eval I = (Node.select (.store array stored value) index).eval I := by
  have sameType : (stored.eval I).type = (index.eval I).type := by
    obtain ⟨index', element, isArray, -, indexType, -⟩ := Node.getType_store_iff.mp typed
    obtain ⟨rfl, -⟩ := TypeNode.array.inj isArray
    rw [Node.type_eval I indexType, Node.type_eval I isIndex.typed]
  rw [Node.eval, Node.eval, Node.eval,
    Value.select_store_of_ne (Node.fits_of_store I typed) sameType (Ne.symm differ)]

omit [LinearOrder Node] in
/-- A read goes below a store whose index is decided to differ and ends at one with the same index, by
induction on the array.
-/
theorem readStores_sound {compare : Node → Option Bool} (closed : Closed known) (isIndex : IsTerm known t index)
    (sound : ∀ {stored verdict}, IsTerm known t stored → compare stored = some verdict
      → (verdict = true ↔ index.eval I = stored.eval I))
    (array : Node) (isArray : IsTerm known (.array t e) array)
    : Reads I known t e array index (readStores compare array) := by
  induction array with
  | store array stored value ih _ _ =>
      obtain ⟨isBelow, isStored, -⟩ := isArray.store closed
      rw [readStores]
      split
      · exact ⟨isArray, rfl⟩
      · next answer => exact select_same isArray.typed ((sound isStored answer).mp rfl)
      · next answer =>
          have differ : index.eval I ≠ stored.eval I := fun same => by
            cases (sound isStored answer).mpr same
          have below := ih isBelow
          have same := select_differ isArray.typed isIndex differ
          cases isWalk : readStores compare array with
          | found found =>
              rw [isWalk] at below
              exact below.trans same
          | stopped rest skipped =>
              rw [isWalk] at below
              exact ⟨below.1, below.2.trans same⟩
  | constBoolean _ | constant _ _ | term _ _ | storeAll _ _ _ | select _ _ _ _ | equal _ _ _ _ =>
      exact ⟨isArray, rfl⟩

theorem selectBelow_sound {array below : Node} (isIndex : IsTerm known t index)
    (isBelow : IsTerm known (.array t e) below)
    (same : (Node.select below index).eval I = (Node.select array index).eval I)
    : (selectBelow array index below).node.eval I = (Node.select array index).eval I := by
  unfold selectBelow
  split
  · next t' value =>
      obtain ⟨_, isArray, -⟩ := Node.getType_storeAll_iff.mp isBelow.typed
      obtain ⟨rfl, -⟩ := TypeNode.array.inj isArray
      rw [← same, Node.eval, Node.eval, ← Node.type_eval I isIndex.typed, Value.select_storeAll]
  · split
    · exact same
    · rfl

-- Moving stores

/-- Stores the values of entries to an array. -/
noncomputable def addBackValue (I : Interpretation) (array : Value I.carrier) (skipped : List (Node × Node))
    : Value I.carrier :=
  skipped.foldl (fun a entry => a.store (entry.1.eval I) (entry.2.eval I)) array

omit [LinearOrder Node] in
theorem eval_addBack (n : Node) (skipped : List (Node × Node))
    : (addBack n skipped).eval I = addBackValue I (n.eval I) skipped := by
  induction skipped generalizing n with
  | nil => rfl
  | cons entry skipped ih => exact ih (.store n entry.1 entry.2)

/-- A store to the array is one below, with some stores added back. -/
structure Inserts (I : Interpretation) (known : Set Node) (t e : TypeNode) (array index below : Node)
    (skipped : List (Node × Node)) : Prop where
  isBelow : IsTerm known (.array t e) below
  moved : ∀ w : Value I.carrier, w.type = e
    → (array.eval I).store (index.eval I) w = addBackValue I ((below.eval I).store (index.eval I) w) skipped

variable {array below value : Node} {skipped : List (Node × Node)}

omit [LinearOrder Node] in
theorem Inserts.here (isArray : IsTerm known (.array t e) array) : Inserts I known t e array index array [] :=
  ⟨isArray, fun _ _ => rfl⟩

omit [LinearOrder Node] in
theorem fits_of_type (isArray : IsTerm known (.array t e) array) (isIndex : IsTerm known t index)
    {w : Value I.carrier} (isElement : w.type = e)
    : (array.eval I).Fits (index.eval I) w := by
  rw [Value.Fits, Node.type_eval I isArray.typed, Node.type_eval I isIndex.typed, isElement]

omit [LinearOrder Node] in
/-- A store to the same index is overwritten. -/
theorem Inserts.overwrite (closed : Closed known) (isIndex : IsTerm known t index)
    (isArray : IsTerm known (.array t e) (.store array stored value)) (same : index.eval I = stored.eval I)
    : Inserts I known t e (.store array stored value) index array [] := by
  obtain ⟨isBelow, -, -⟩ := isArray.store closed
  refine ⟨isBelow, fun w isElement => ?_⟩
  have fits := Node.fits_of_store I isArray.typed
  rw [← same] at fits
  rw [Node.eval, ← same, Value.store_store_self fits (fits_of_type isBelow isIndex isElement)]
  rfl

omit [LinearOrder Node] in
/-- A store to another index is skipped. -/
theorem Inserts.skip (closed : Closed known) (isIndex : IsTerm known t index)
    (isArray : IsTerm known (.array t e) (.store array stored value)) (differ : index.eval I ≠ stored.eval I)
    (inserts : Inserts I known t e array index below skipped)
    : Inserts I known t e (.store array stored value) index below (skipped ++ [(stored, value)]) := by
  obtain ⟨isBelow, -, -⟩ := isArray.store closed
  refine ⟨inserts.isBelow, fun w isElement => ?_⟩
  have fits := Node.fits_of_store I isArray.typed
  rw [Node.eval, Value.store_comm fits (fits_of_type isBelow isIndex isElement) (Ne.symm differ),
    inserts.moved w isElement, addBackValue, addBackValue, List.foldl_append]
  rfl

theorem insertionWalk_sound (closed : Closed known) (relied : Relied I sorts mkEqNode known)
    (isIndex : IsTerm known t index) (array : Node) (isArray : IsTerm known (.array t e) array)
    (above : List (Node × Node))
    : ∃ below skipped, insertionWalk sorts mkEqNode index array above = (below, skipped ++ above)
      ∧ Inserts I known t e array index below skipped := by
  induction array generalizing above with
  | store array stored value ih _ _ =>
      obtain ⟨isBelow, isStored, -⟩ := isArray.store closed
      rw [insertionWalk]
      split
      · exact ⟨_, [], rfl, .here isArray⟩
      · next answer =>
          have same := (compareIndices_sound relied isIndex isStored answer).mp rfl
          exact ⟨array, [], rfl, .overwrite closed isIndex isArray same⟩
      · next answer =>
          have differ : index.eval I ≠ stored.eval I := fun same => by
            cases (compareIndices_sound relied isIndex isStored answer).mpr same
          split
          · obtain ⟨below, skipped, isWalk, inserts⟩ := ih isBelow ((stored, value) :: above)
            refine ⟨below, skipped ++ [(stored, value)], ?_, inserts.skip closed isIndex isArray differ⟩
            rw [isWalk, List.append_assoc, List.singleton_append]
          · exact ⟨_, [], rfl, .here isArray⟩
  | constBoolean _ | constant _ _ | term _ _ | storeAll _ _ _ | select _ _ _ _ | equal _ _ _ _ =>
      exact ⟨_, [], rfl, .here isArray⟩

theorem differ_of_canMovePast (relied : Relied I sorts mkEqNode known) (isIndex : IsTerm known t index)
    (isStored : IsTerm known t stored) (notSame : ¬stored = index)
    (success : canMovePast sorts mkEqNode index stored = true)
    : index.eval I ≠ stored.eval I := by
  intro same
  rw [canMovePast] at success
  split at success
  · next constIndex =>
      exact notSame (relied.distinct stored isStored.isKnown index isIndex.isKnown t isStored.typed isIndex.typed
        success constIndex same.symm)
  · cases (eval_of_constBoolean? relied isIndex isStored (of_decide_eq_true success)).mpr same

/-- A read goes below stores to indices that differ, and stops at one that may be equal, by induction on the
array.
-/
theorem normalizeWalk_select (closed : Closed known) (relied : Relied I sorts mkEqNode known)
    (isIndex : IsTerm known t index) (array : Node) (isArray : IsTerm known (.array t e) array)
    (above : List (Node × Node))
    : Reads I known t e array index (normalizeWalk sorts mkEqNode false index array above) := by
  induction array generalizing above with
  | store array stored value ih _ _ =>
      obtain ⟨isBelow, isStored, -⟩ := isArray.store closed
      rw [normalizeWalk]
      split
      · next same => exact select_same isArray.typed (by rw [same])
      · next notSame =>
          rw [if_neg (by simp)]
          split
          · next success =>
              have differ := differ_of_canMovePast relied isIndex isStored notSame success
              have same := select_differ isArray.typed isIndex differ
              have rest := ih isBelow ((stored, value) :: above)
              cases isWalk : normalizeWalk sorts mkEqNode false index array ((stored, value) :: above) with
              | found found =>
                  rw [isWalk] at rest
                  exact rest.trans same
              | stopped below skipped =>
                  rw [isWalk] at rest
                  exact ⟨rest.1, rest.2.trans same⟩
          · exact ⟨isArray, rfl⟩
  | constBoolean _ | constant _ _ | term _ _ | storeAll _ _ _ | select _ _ _ _ | equal _ _ _ _ =>
      exact ⟨isArray, rfl⟩

/-- A store goes below stores to indices that differ and skips one to the same index, by induction on the
array.
-/
theorem normalizeWalk_store (closed : Closed known) (relied : Relied I sorts mkEqNode known)
    (isIndex : IsTerm known t index) (array : Node) (isArray : IsTerm known (.array t e) array)
    (above : List (Node × Node))
    : ∃ below skipped, normalizeWalk sorts mkEqNode true index array above = .stopped below (skipped ++ above)
      ∧ Inserts I known t e array index below skipped := by
  induction array generalizing above with
  | store array stored value ih _ _ =>
      obtain ⟨isBelow, isStored, -⟩ := isArray.store closed
      rw [normalizeWalk]
      split
      · next same =>
          rw [if_pos rfl]
          exact ⟨array, [], rfl, .overwrite closed isIndex isArray (by rw [same])⟩
      · next notSame =>
          split
          · exact ⟨_, [], rfl, .here isArray⟩
          · split
            · next success =>
                have differ := differ_of_canMovePast relied isIndex isStored notSame success
                obtain ⟨below, skipped, isWalk, inserts⟩ := ih isBelow ((stored, value) :: above)
                refine ⟨below, skipped ++ [(stored, value)], ?_, inserts.skip closed isIndex isArray differ⟩
                rw [isWalk, List.append_assoc, List.singleton_append]
            · exact ⟨_, [], rfl, .here isArray⟩
  | constBoolean _ | constant _ _ | term _ _ | storeAll _ _ _ | select _ _ _ _ | equal _ _ _ _ =>
      exact ⟨_, [], rfl, .here isArray⟩

-- The rewrites

omit [LinearOrder Node] in
theorem IsTerm.select (closed : Closed known) (isTerm : IsTerm known e (.select array index))
    : ∃ t, IsTerm known (.array t e) array ∧ IsTerm known t index := by
  obtain ⟨t, arrayType, indexType⟩ := Node.getType_select_iff.mp isTerm.typed
  obtain ⟨knownArray, knownIndex⟩ := closed.select isTerm.isKnown
  exact ⟨t, ⟨knownArray, arrayType⟩, ⟨knownIndex, indexType⟩⟩

omit [LinearOrder Node] in
theorem IsTerm.exists_store {s : TypeNode} (closed : Closed known) (isTerm : IsTerm known s (.store array index value))
    : ∃ t e, s = .array t e ∧ IsTerm known (.array t e) array ∧ IsTerm known t index ∧ IsTerm known e value := by
  obtain ⟨t, e, rfl, -⟩ := Node.getType_store_iff.mp isTerm.typed
  exact ⟨t, e, rfl, isTerm.store closed⟩

/-- `computeNormalizeOp` keeps the value. -/
theorem computeNormalizeOp_sound {n r : Node} {s : TypeNode} (closed : Closed known)
    (relied : Relied I sorts mkEqNode known) (isTerm : IsTerm known s n)
    (rewritten : computeNormalizeOp sorts mkEqNode n = some r)
    : r.eval I = n.eval I := by
  cases n with
  | select array index =>
      obtain ⟨t, isArray, isIndex⟩ := isTerm.select closed
      have reads := normalizeWalk_select closed relied isIndex array isArray []
      rw [computeNormalizeOp] at rewritten
      split at rewritten
      · next isWalk =>
          obtain rfl := Option.some.inj rewritten
          rwa [isWalk] at reads
      · cases rewritten
      · next isWalk =>
          obtain rfl := Option.some.inj rewritten
          rw [isWalk] at reads
          exact reads.2
  | store array index value =>
      obtain ⟨t, e, rfl, isArray, isIndex, isValue⟩ := isTerm.exists_store closed
      obtain ⟨below, skipped, isWalk, inserts⟩ := normalizeWalk_store closed relied isIndex array isArray []
      rw [computeNormalizeOp, isWalk, List.append_nil] at rewritten
      cases skipped with
      | nil => cases rewritten
      | cons entry skipped =>
          obtain rfl := Option.some.inj rewritten
          rw [eval_addBack, Node.eval, Node.eval, inserts.moved _ (Node.type_eval I isValue.typed)]
  | _ => cases rewritten

/-- The reordered stores have the value of the node, and are another node. -/
theorem reorderStores_sound {element : Node} (closed : Closed known) (relied : Relied I sorts mkEqNode known)
    (isTerm : IsTerm known (.array t e) (.store (.store array stored element) index value))
    (different : compareIndices sorts mkEqNode index stored = some false)
    : reorderStores sorts mkEqNode array stored element index value ≠ .store (.store array stored element) index value
      ∧ (reorderStores sorts mkEqNode array stored element index value).eval I
        = (Node.store (.store array stored element) index value).eval I := by
  obtain ⟨isStore, isIndex, isValue⟩ := isTerm.store closed
  obtain ⟨isArray, isStored, -⟩ := isStore.store closed
  obtain ⟨below, skipped, isWalk, inserts⟩ :=
    insertionWalk_sound closed relied isIndex array isArray [(stored, element)]
  have differ : index.eval I ≠ stored.eval I := fun same => by
    cases (compareIndices_sound relied isIndex isStored different).mpr same
  have inserted : ((if value = .select below index then below else Node.store below index value) : Node).eval I
      = (below.eval I).store (index.eval I) (value.eval I) := by
    split
    · next isRead =>
        have fits := fits_of_type inserts.isBelow isIndex (Node.type_eval I isValue.typed)
        rw [isRead, Node.eval, Value.store_select_self fits]
    · rfl
  rw [reorderStores, isWalk]
  constructor
  · -- The outermost store of the result is to the other index.
    intro same
    have outermost (n : Node) : addBack n (skipped ++ [(stored, element)]) = .store (addBack n skipped) stored element :=
      List.foldl_append
    exact differ (congrArg (Node.eval I) (Node.store.inj ((outermost _).symm.trans same)).2.1.symm)
  · rw [eval_addBack, inserted]
    exact ((inserts.skip closed isIndex isStore differ).moved _ (Node.type_eval I isValue.typed)).symm

/-- A store is rewritten to one with the same value, by cases on where the walk stops. -/
theorem postRewriteStore_sound (closed : Closed known) (relied : Relied I sorts mkEqNode known)
    (isTerm : IsTerm known (.array t e) (.store array index value))
    : ∃ response, postRewriteStore sorts mkEqNode array index value = some response
      ∧ response.node.eval I = (Node.store array index value).eval I := by
  obtain ⟨isArray, isIndex, isValue⟩ := isTerm.store closed
  unfold postRewriteStore
  split
  · next isRead =>
      have fits := fits_of_type isArray isIndex (Node.type_eval I isValue.typed)
      refine ⟨_, rfl, ?_⟩
      rw [isRead, Node.eval, Node.eval, Value.store_select_self fits]
  · split
    · next areConst =>
        obtain ⟨areConst, constValue⟩ := Bool.and_eq_true_iff.mp areConst
        obtain ⟨constArray, constIndex⟩ := Bool.and_eq_true_iff.mp areConst
        obtain ⟨n, isNormal, same⟩ := normalizeConstant_sound closed relied
          ⟨isArray.isKnown, isArray.typed, constArray⟩ ⟨isIndex.isKnown, isIndex.typed, constIndex⟩
          ⟨isValue.isKnown, isValue.typed, constValue⟩
        exact ⟨⟨.done, n⟩, by rw [isNormal, Option.map_some], same⟩
    · split
      · next array stored element _ _ =>
          obtain ⟨-, isStored, -⟩ := isArray.store closed
          split
          · exact ⟨_, rfl, rfl⟩
          · next answer =>
              have same := (compareIndices_sound relied isIndex isStored answer).mp rfl
              have inserts : Inserts I known t e (.store array stored element) index array [] :=
                .overwrite closed isIndex isArray same
              exact ⟨_, rfl, (inserts.moved _ (Node.type_eval I isValue.typed)).symm⟩
          · next answer =>
              split
              · obtain ⟨another, same⟩ := reorderStores_sound closed relied isTerm answer
                rw [if_pos another]
                exact ⟨_, rfl, same⟩
              · exact ⟨_, rfl, rfl⟩
      · exact ⟨_, rfl, rfl⟩

theorem postRewrite_sound {n : Node} {s : TypeNode} (closed : Closed known)
    (relied : Relied I sorts mkEqNode known) (isTerm : IsTerm known s n)
    : ∃ response, postRewrite sorts mkEqNode n = some response ∧ response.node.eval I = n.eval I := by
  cases n with
  | select array index =>
      obtain ⟨t, isArray, isIndex⟩ := isTerm.select closed
      have reads := readStores_sound closed isIndex (fun isStored answer =>
        compareIndices_sound relied isIndex isStored answer) array isArray
      rw [postRewrite]
      split
      · next isWalk =>
          rw [isWalk] at reads
          exact ⟨_, rfl, reads⟩
      · next isWalk =>
          rw [isWalk] at reads
          exact ⟨_, rfl, selectBelow_sound isIndex reads.1 reads.2⟩
  | store array index value =>
      obtain ⟨t, e, rfl, -⟩ := isTerm.exists_store closed
      exact postRewriteStore_sound closed relied isTerm
  | equal left right =>
      obtain ⟨rfl, side, leftType, rightType⟩ := Node.getType_equal_iff.mp isTerm.typed
      obtain ⟨knownLeft, knownRight⟩ := closed.equal isTerm.isKnown
      rw [postRewrite]
      split
      · next same =>
          refine ⟨_, rfl, ?_⟩
          rw [same]
          simp [Node.eval]
      · next differ =>
          split
          · next areConst =>
              obtain ⟨constLeft, constRight⟩ := Bool.and_eq_true_iff.mp areConst
              have notSame : left.eval I ≠ right.eval I := fun same => differ
                (relied.distinct left knownLeft right knownRight side leftType rightType constLeft constRight same)
              refine ⟨_, rfl, ?_⟩
              simp [Node.eval, notSame]
          · split
            · refine ⟨_, rfl, ?_⟩
              rw [Node.eval, Node.eval, eq_comm (a := left.eval I)]
            · exact ⟨_, rfl, rfl⟩
  | constBoolean _ | constant _ _ | term _ _ | storeAll _ _ => exact ⟨_, rfl, rfl⟩

theorem preRewrite_sound {n : Node} {s : TypeNode} (closed : Closed known)
    (relied : Relied I sorts mkEqNode known) (isTerm : IsTerm known s n)
    : (preRewrite sorts n).node.eval I = n.eval I := by
  have compared {index stored : Node} {t : TypeNode} {verdict : Bool} (isIndex : IsTerm known t index)
      (isStored : IsTerm known t stored) (answer : compareSyntactic sorts index stored = some verdict)
      : verdict = true ↔ index.eval I = stored.eval I :=
    compareIndices_sound relied isIndex isStored (compareIndices_of_syntactic answer)
  cases n with
  | select array index =>
      obtain ⟨t, isArray, isIndex⟩ := isTerm.select closed
      have reads := readStores_sound closed isIndex (fun isStored answer => compared isIndex isStored answer)
        array isArray
      rw [preRewrite]
      split
      · next isWalk =>
          rw [isWalk] at reads
          exact reads
      · next isWalk =>
          rw [isWalk] at reads
          exact selectBelow_sound isIndex reads.1 reads.2
  | store array index value =>
      obtain ⟨t, e, rfl, isArray, isIndex, isValue⟩ := isTerm.exists_store closed
      unfold preRewrite
      dsimp only
      split
      · next isRead =>
          have fits := fits_of_type isArray isIndex (Node.type_eval I isValue.typed)
          rw [isRead, Node.eval, Node.eval, Value.store_select_self fits]
      · split
        · next array stored element _ =>
            obtain ⟨-, isStored, -⟩ := isArray.store closed
            split
            · next answer =>
                have inserts : Inserts I known t e (.store array stored element) index array [] :=
                  .overwrite closed isIndex isArray ((compared isIndex isStored answer).mp rfl)
                exact (inserts.moved _ (Node.type_eval I isValue.typed)).symm
            · rfl
        · rfl
  | equal left right =>
      rw [preRewrite]
      split
      · next same =>
          rw [same]
          simp [Node.eval]
      · rfl
  | constBoolean _ | constant _ _ | term _ _ | storeAll _ _ => rfl

/-- Read-over-write rewriting keeps the meaning of each node, and `postRewrite` always answers: the reordering of
stores never gives the node itself. -/
theorem rewrites_keep_meaning (closed : Closed known) (relied : Relied I sorts mkEqNode known) {n : Node}
    {s : TypeNode} (isKnown : n ∈ known) (typed : n.getType = some s)
    : (∃ response, postRewrite sorts mkEqNode n = some response ∧ response.node.eval I = n.eval I)
      ∧ (preRewrite sorts n).node.eval I = n.eval I
      ∧ ∀ r, computeNormalizeOp sorts mkEqNode n = some r → r.eval I = n.eval I :=
  ⟨postRewrite_sound closed relied ⟨isKnown, typed⟩, preRewrite_sound closed relied ⟨isKnown, typed⟩,
    fun _ rewritten => computeNormalizeOp_sound closed relied ⟨isKnown, typed⟩ rewritten⟩

section Example

omit [LinearOrder Node]

/-- An order of the nodes. -/
noncomputable abbrev nodeOrder : LinearOrder Node := @linearOrderOfSTO _ WellOrderingRel _ (Classical.decRel _)

def someValue : (t : TypeNode) → Domain (fun _ => Nat) t
  | .bool => False
  | .sort _ => (0 : Nat)
  | .array _ element => fun _ => someValue element

/-- All sorts are the numbers, with the constants as their names. -/
def numbers : Interpretation where
  carrier _ := Nat
  constant _ name := name
  term type _ := someValue type

/-- The infinite sorts, of which no constants are enumerated. -/
def infiniteSorts : Sorts := ⟨fun _ => none, fun _ => []⟩

/-- The nodes without constant arrays. -/
def NoStoreAll : Node → Prop
  | .constBoolean _ | .constant _ _ | .term _ _ => True
  | .storeAll _ _ => False
  | .select array index => NoStoreAll array ∧ NoStoreAll index
  | .store array index value => NoStoreAll array ∧ NoStoreAll index ∧ NoStoreAll value
  | .equal left right => NoStoreAll left ∧ NoStoreAll right

theorem isConst_noStoreAll {n : Node} (plain : NoStoreAll n) (isConst : @Node.isConst nodeOrder infiniteSorts n = true)
    : (∃ value, n = .constBoolean value) ∨ ∃ sort name, n = .constant sort name := by
  induction n with
  | constBoolean value => exact Or.inl ⟨value, rfl⟩
  | constant sort name => exact Or.inr ⟨sort, name, rfl⟩
  | store array index value ih _ _ =>
      simp only [Node.isConst, Bool.and_eq_true] at isConst
      rcases ih plain.1 isConst.1.1.1 with ⟨value, rfl⟩ | ⟨sort, name, rfl⟩
      · cases isConst.2
      · cases isConst.2
  | storeAll _ _ _ => exact plain.elim
  | term _ _ | select _ _ _ _ | equal _ _ _ _ => cases isConst

theorem relied_numbers : @Relied nodeOrder numbers infiniteSorts .equal NoStoreAll := by
  refine @Relied.mk nodeOrder _ _ _ _ (fun _ _ _ _ _ _ _ => rfl) ?_ nofun nofun nofun
  intro a plainA b plainB t typeA typeB constA constB same
  rcases isConst_noStoreAll plainA constA with ⟨x, rfl⟩ | ⟨sort, name, rfl⟩
  · rcases isConst_noStoreAll plainB constB with ⟨y, rfl⟩ | ⟨sort', name', rfl⟩
    · have sameProp : (x = true) = (y = true) := eq_of_heq (Value.mk.inj same).2
      rw [Bool.eq_iff_iff.mpr (iff_of_eq sameProp)]
    · cases typeA.trans typeB.symm
  · rcases isConst_noStoreAll plainB constB with ⟨y, rfl⟩ | ⟨sort', name', rfl⟩
    · cases typeA.trans typeB.symm
    · obtain rfl : sort = sort' := TypeNode.sort.inj (Option.some.inj (typeA.trans typeB.symm))
      have sameName : name = name' := eq_of_heq (Value.mk.inj same).2
      rw [sameName]

/-- A read at one constant past a store to another one. -/
theorem select_past_store
    : @postRewrite nodeOrder infiniteSorts .equal
        (.select (.store (.term (.array (.sort 0) (.sort 0)) 0) (.constant 0 1) (.constant 0 2)) (.constant 0 0))
        = some ⟨.done, .select (.term (.array (.sort 0) (.sort 0)) 0) (.constant 0 0)⟩
      ∧ (Node.select (.term (.array (.sort 0) (.sort 0)) 0) (.constant 0 0)).eval numbers
        = (Node.select (.store (.term (.array (.sort 0) (.sort 0)) 0) (.constant 0 1) (.constant 0 2))
          (.constant 0 0)).eval numbers := by
  have closed : Closed NoStoreAll := ⟨False.elim, id, id, id⟩
  obtain ⟨⟨response, isResponse, same⟩, -⟩ := @rewrites_keep_meaning nodeOrder numbers infiniteSorts .equal
    NoStoreAll closed relied_numbers
    (.select (.store (.term (.array (.sort 0) (.sort 0)) 0) (.constant 0 1) (.constant 0 2)) (.constant 0 0))
    (.sort 0) ⟨⟨trivial, trivial, trivial⟩, trivial⟩ rfl
  have rewritten : @postRewrite nodeOrder infiniteSorts .equal
      (.select (.store (.term (.array (.sort 0) (.sort 0)) 0) (.constant 0 1) (.constant 0 2)) (.constant 0 0))
      = some ⟨.done, .select (.term (.array (.sort 0) (.sort 0)) 0) (.constant 0 0)⟩ := by
    simp [postRewrite, readStores, compareIndices, Node.isConst, selectBelow]
  obtain rfl := Option.some.inj (isResponse.symm.trans rewritten)
  exact ⟨rewritten, same⟩

end Example

end TheoryArraysRewriter

end Ava6.Arrays
