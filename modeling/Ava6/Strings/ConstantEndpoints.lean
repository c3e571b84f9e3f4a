import Ava6.Strings.Word

/-! The end points of a concatenation that nothing of another one, which it may contain, can be matched with.
-/

namespace Ava6.Strings

open Library.Occurrence Util.InternalString

-- Passes

/-- The base of nested applications of `str.substr`, with their starts and lengths, inner ones first. -/
def decomposeSubstrChain : StringTerm → StringTerm × List IntTerm × List IntTerm
  | .substr s start length =>
      let (base, ss, ls) := decomposeSubstrChain s
      (base, ss ++ [start], ls ++ [length])
  | s => (s, [], [])

inductive EndpointAction
  | keep
  /-- All but `overlap` characters of the constant `s` are removed. -/
  | cut (s : Word) (overlap : Nat)
  | removeComponent
  deriving DecidableEq

/-- What is done with an end point that is a constant, or that is a substring of one. -/
def constantAction (isBack isOnly isSubstr : Bool) (s : Word) : StringTerm → EndpointAction
  | .const t =>
      match if isBack then Word.rfind s t 0 else Word.find s t 0 with
      | none =>
          if isOnly then .removeComponent
          else if isSubstr then .keep
          else
            -- an overapproximation of the number of characters that `t` can match in `s`
            let overlap := if isBack then Word.overlap t s else Word.overlap s t
            if overlap < s.length then if overlap = 0 then .removeComponent else .cut s overlap
            else .keep
      | some ret =>
          if isSubstr then .keep
          else if s.length - ret < s.length then
            if s.length - ret = 0 then .removeComponent else .cut s (s.length - ret)
          else .keep
  | _ => .keep

/-- What is done with an end point that is a numeral, or a substring of one. -/
def numeralAction (isBack isOnly : Bool) : StringTerm → EndpointAction
  | .const t =>
      if isOnly then if Word.isNumber t then .keep else .removeComponent
      else if isDigit (if isBack then t.getLastD 0 else t.headD 0) then .keep
      else .removeComponent
  | _ => .keep

def endpointAction (isBack isOnly : Bool) (n1cmp n2cmp : StringTerm) : EndpointAction :=
  match decomposeSubstrChain n1cmp with
  | (.const s, sss, _) => constantAction isBack isOnly (!sss.isEmpty) s n2cmp
  | (.fromInt _, _, _) => numeralAction isBack isOnly n2cmp
  | _ => .keep

/-- The vectors that are changed. -/
structure Endpoints where
  n1 : List StringTerm
  nb : List StringTerm
  ne : List StringTerm
  changed : Bool

def endpoint? (isBack : Bool) (terms : List StringTerm) : Option StringTerm :=
  if isBack then terms.getLast? else terms.head?

def Endpoints.cut (e : Endpoints) (isBack : Bool) (s : Word) (overlap : Nat) : Endpoints :=
  if isBack then
    { e with
      ne := e.ne ++ [.const (Word.suffixOf s (s.length - overlap))],
      n1 := e.n1.dropLast ++ [.const (Word.prefixOf s overlap)],
      changed := true }
  else
    { e with
      nb := e.nb ++ [.const (Word.prefixOf s (s.length - overlap))],
      n1 := .const (Word.suffixOf s overlap) :: e.n1.tail,
      changed := true }

def Endpoints.remove (e : Endpoints) (isBack : Bool) (n1cmp : StringTerm) : Endpoints :=
  if isBack then { e with ne := e.ne ++ [n1cmp], n1 := e.n1.dropLast, changed := true }
  else { e with nb := e.nb ++ [n1cmp], n1 := e.n1.tail, changed := true }

/-- One pass; with a result where the function returns at once. -/
def stripEndpoint (n2 : List StringTerm) (isBack : Bool) (e : Endpoints) : Endpoints × Option Bool :=
  match endpoint? isBack e.n1, endpoint? isBack n2 with
  | some n1cmp, some n2cmp =>
      if n1cmp = .const [] then (e, some false)
      else
        match endpointAction isBack (e.n1.length == 1) n1cmp n2cmp with
        | .keep => (e, none)
        | .cut s overlap => (e.cut isBack s overlap, none)
        | .removeComponent => (e.remove isBack n1cmp, if (e.remove isBack n1cmp).n1.isEmpty then some true else none)
  -- the lists have components
  | _, _ => (e, some false)

/-- Both directions if `dir` is 0, the first one only if it is 1, the second one only if it is -1. -/
def stripConstantEndpoints (n1 n2 : List StringTerm) (dir : Int) : Endpoints × Bool :=
  let first :=
    if dir = 0 ∨ dir = 1 then stripEndpoint n2 false ⟨n1, [], [], false⟩ else (⟨n1, [], [], false⟩, none)
  match first with
  | (e, some changed) => (e, changed)
  | (e, none) =>
      if dir = 0 ∨ dir = -1 then
        match stripEndpoint n2 true e with
        | (e, some changed) => (e, changed)
        | (e, none) => (e, e.changed)
      else (e, e.changed)

-- Which occurrences there can be

/-- Words are read from the end in the second pass. -/
def orient (isBack : Bool) (w : Word) : Word := if isBack then w.reverse else w

variable {A : Assignment} {isBack isOnly : Bool}

@[simp]
theorem length_orient (w : Word) : (orient isBack w).length = w.length := by
  cases isBack with
  | false => rfl
  | true => exact List.length_reverse

theorem orient_isInfix (isBack : Bool) {t w : Word} : orient isBack t <:+: orient isBack w ↔ t <:+: w := by
  cases isBack with
  | false => rfl
  | true => exact List.reverse_infix

theorem mem_orient {c : Nat} {w : Word} : c ∈ orient isBack w ↔ c ∈ w := by
  cases isBack with
  | false => rfl
  | true => exact List.mem_reverse

theorem orient_ne_nil {w : Word} (isNonEmpty : w ≠ []) : orient isBack w ≠ [] := by
  cases isBack with
  | false => exact isNonEmpty
  | true => exact List.reverse_ne_nil_iff.mpr isNonEmpty

theorem head_orient {t rest : Word} {first : Nat} (isCons : orient isBack t = first :: rest)
    : (if isBack then t.getLastD 0 else t.headD 0) = first := by
  cases isBack with
  | false =>
      rw [show t = first :: rest from isCons]
      rfl
  | true =>
      rw [show t = (first :: rest).reverse from List.reverse_eq_iff.mp isCons, List.reverse_cons]
      simp

theorem decomposeSubstrChain_isInfix (s : StringTerm) : s.eval A <:+: (decomposeSubstrChain s).1.eval A := by
  match s with
  | .substr s start length =>
      rw [StringTerm.eval]
      exact (Word.substr_isInfix _ _ _).trans (decomposeSubstrChain_isInfix s)
  | .const _ | .var _ | .concat _ | .unit _ | .replace _ _ _ | .fromInt _ => exact List.infix_rfl

theorem eq_of_decomposeSubstrChain {s base : StringTerm} {ls : List IntTerm}
    (isChain : decomposeSubstrChain s = (base, [], ls))
    : s = base := by
  match s with
  | .substr s start length =>
      have starts := congrArg (fun chain => chain.2.1) isChain
      exact absurd starts (List.append_ne_nil_of_right_ne_nil _ (List.cons_ne_nil _ _))
  | .const _ | .var _ | .concat _ | .unit _ | .replace _ _ _ | .fromInt _ => exact congrArg Prod.fst isChain

/-- How many characters of the end point, as oriented, an action removes. -/
def EndpointAction.removed (n1cmp : Word) : EndpointAction → Nat
  | .keep => 0
  | .cut s overlap => s.length - overlap
  | .removeComponent => n1cmp.length

theorem find_orient (s t : Word)
    : (if isBack then Word.rfind s t 0 else Word.find s t 0) = Word.find (orient isBack s) (orient isBack t) 0 := by
  cases isBack with
  | false => rfl
  | true => exact Word.rfind_eq_find_reverse

theorem overlap_orient (s t : Word)
    : (if isBack then Word.overlap t s else Word.overlap s t) = Word.overlap (orient isBack s) (orient isBack t) := by
  cases isBack with
  | false => rfl
  | true => exact Word.overlap_reverse.symm

theorem removed_overlap (s : Word) (overlap : Nat)
    : (if overlap < s.length then if overlap = 0 then EndpointAction.removeComponent else .cut s overlap
        else .keep).removed s = s.length - overlap := by
  split
  · split
    · rename_i isZero
      rw [isZero]
      rfl
    · rfl
  · rw [EndpointAction.removed]
    omega

/-- An occurrence of `t` that is not within `s` leaves out what does not overlap. -/
theorem sub_overlap_le {s t u : Word} {p : Nat} (occurs : OccursAt t (s ++ u) p) (notWithin : s.length < p + t.length)
    : s.length - Word.overlap s t ≤ p := by
  rcases le_total s.length p with isAfter | starts
  · omega
  · have isOverlap : Word.suffixOf s (s.length - p) = Word.prefixOf t (s.length - p) := by
      rw [Word.suffixOf, Word.prefixOf, Nat.sub_sub_self starts]
      exact occurs.overlap starts (le_of_lt notWithin)
    have := Word.le_overlap (Nat.sub_le _ _) (by omega) isOverlap
    omega

theorem constantAction_le {isSubstr : Bool} {s s' U V : Word} {n2cmp : StringTerm} {p : Nat} (within : s' <:+: s)
    (same : isSubstr = false → s' = s) (isLast : isOnly = true → U = [])
    (occurs : OccursAt (orient isBack (n2cmp.eval A) ++ V) (orient isBack s' ++ U) p)
    : (constantAction isBack isOnly isSubstr s n2cmp).removed s' ≤ p := by
  cases n2cmp with
  | const t =>
      rw [eval_const] at occurs
      have ofT := occurs.left
      rw [constantAction, find_orient, overlap_orient]
      cases isFound : Word.find (orient isBack s) (orient isBack t) 0 with
      | none =>
          have nowhere : ∀ q, ¬OccursAt (orient isBack t) (orient isBack s) q :=
            fun q => Word.find_eq_none isFound (Nat.zero_le q)
          simp only
          cases isOnly with
          | true =>
              rw [isLast rfl, List.append_nil] at ofT
              obtain ⟨q, inS⟩ := isInfix_iff.mp (ofT.isInfix.trans ((orient_isInfix _).mpr within))
              exact absurd inS (nowhere q)
          | false =>
              cases isSubstr with
              | true => exact Nat.zero_le p
              | false =>
                  obtain rfl := same rfl
                  simp only [Bool.false_eq_true, if_false]
                  rw [removed_overlap, ← @length_orient isBack]
                  refine sub_overlap_le ofT (lt_of_not_ge fun ends => ?_)
                  exact nowhere p (ofT.of_append ends)
      | some ret =>
          obtain ⟨-, atRet, first⟩ := Word.find_eq_some isFound
          have bound := atRet.add_length_le
          simp only
          cases isSubstr with
          | true => exact Nat.zero_le p
          | false =>
              obtain rfl := same rfl
              simp only [Bool.false_eq_true, if_false]
              rw [removed_overlap]
              have isFirst : ret ≤ p := by
                by_contra isBefore
                exact isBefore (first p (Nat.zero_le p) (ofT.of_append (by omega)))
              omega
  | _ => exact Nat.zero_le p

theorem numeralAction_le {n : Int} {s' U V : Word} {n2cmp : StringTerm} {p : Nat} (within : s' <:+: Word.fromInt n)
    (isNonEmpty : n2cmp ≠ .const []) (isLast : isOnly = true → U = [])
    (occurs : OccursAt (orient isBack (n2cmp.eval A) ++ V) (orient isBack s' ++ U) p)
    : (numeralAction isBack isOnly n2cmp).removed s' ≤ p := by
  match n2cmp with
  | .var _ | .concat _ | .unit _ | .substr _ _ _ | .replace _ _ _ | .fromInt _ => exact Nat.zero_le p
  | .const t =>
      rw [eval_const] at occurs
      have ofT := occurs.left
      have digits : ∀ c ∈ s', isDigit c = true := fun c member => Word.isDigit_of_mem_fromInt (within.subset member)
      have isNonEmptyT : t ≠ [] := fun isNil => isNonEmpty (by rw [isNil])
      rw [numeralAction]
      cases isOnly with
      | true =>
          rw [isLast rfl, List.append_nil] at ofT
          have inS := (orient_isInfix _).mp ofT.isInfix
          have isNumber : Word.isNumber t = true := by
            rw [Word.isNumber, Bool.and_eq_true, Bool.not_eq_true', List.isEmpty_eq_false_iff]
            exact ⟨isNonEmptyT, List.all_eq_true.mpr fun c member => digits c (inS.subset member)⟩
          rw [if_pos rfl, if_pos isNumber]
          exact Nat.zero_le p
      | false =>
          simp only [Bool.false_eq_true, if_false]
          by_cases isDigitFirst : isDigit (if isBack then t.getLastD 0 else t.headD 0) = true
          · rw [if_pos isDigitFirst]
            exact Nat.zero_le p
          · rw [if_neg isDigitFirst]
            by_contra isBefore
            have inside : p < s'.length := Nat.lt_of_not_le isBefore
            obtain ⟨first, rest, isCons⟩ := List.exists_cons_of_ne_nil (orient_ne_nil isNonEmptyT)
            rw [isCons, ← List.singleton_append] at ofT
            have inS := (ofT.left.of_append (by rw [length_orient]; exact inside)).isInfix
            have member := inS.subset (List.mem_singleton_self first)
            rw [head_orient isCons] at isDigitFirst
            exact isDigitFirst (digits first (mem_orient.mp member))

theorem endpointAction_le {n1cmp n2cmp : StringTerm} {U V : Word} {p : Nat} (isNonEmpty : n2cmp ≠ .const [])
    (isLast : isOnly = true → U = [])
    (occurs : OccursAt (orient isBack (n2cmp.eval A) ++ V) (orient isBack (n1cmp.eval A) ++ U) p)
    : (endpointAction isBack isOnly n1cmp n2cmp).removed (n1cmp.eval A) ≤ p := by
  have within := decomposeSubstrChain_isInfix (A := A) n1cmp
  rw [endpointAction]
  match isChain : decomposeSubstrChain n1cmp with
  | (.const s, sss, ls) =>
      rw [isChain, eval_const] at within
      refine constantAction_le within (fun notSubstr => ?_) isLast occurs
      have isNil : sss = [] := by simpa using notSubstr
      subst isNil
      rw [eq_of_decomposeSubstrChain isChain, eval_const]
  | (.fromInt n, _, _) =>
      rw [isChain, StringTerm.eval] at within
      exact numeralAction_le within isNonEmpty isLast occurs
  | (.var _, _, _) | (.concat _, _, _) | (.unit _, _, _) | (.substr _ _ _, _, _) | (.replace _ _ _, _, _) =>
      exact Nat.zero_le p

theorem overlapAction_cut {s s' : Word} {overlap overlap' : Nat}
    (isCut : (if overlap < s.length then if overlap = 0 then EndpointAction.removeComponent else .cut s overlap
        else .keep) = .cut s' overlap')
    : s' = s ∧ overlap' ≤ s.length := by
  split at isCut
  · split at isCut
    · cases isCut
    · cases isCut
      rename_i isLess _
      exact ⟨rfl, le_of_lt isLess⟩
  · cases isCut

/-- Only a constant is cut. -/
theorem endpointAction_cut {n1cmp n2cmp : StringTerm} {s : Word} {overlap : Nat}
    (isCut : endpointAction isBack isOnly n1cmp n2cmp = .cut s overlap)
    : n1cmp = .const s ∧ overlap ≤ s.length := by
  rw [endpointAction] at isCut
  match isChain : decomposeSubstrChain n1cmp, n2cmp with
  | (.const s', [], ls), .const t =>
      rw [isChain] at isCut
      rw [eq_of_decomposeSubstrChain isChain]
      simp only [constantAction, List.isEmpty_nil, Bool.not_true, Bool.false_eq_true, if_false] at isCut
      split at isCut
      · split at isCut
        · cases isCut
        · obtain ⟨rfl, within⟩ := overlapAction_cut isCut
          exact ⟨rfl, within⟩
      · obtain ⟨rfl, within⟩ := overlapAction_cut isCut
        exact ⟨rfl, within⟩
  | (.const s', start :: sss, ls), .const t =>
      rw [isChain] at isCut
      simp only [constantAction, List.isEmpty_cons, Bool.not_false, if_true] at isCut
      split at isCut
      · split at isCut <;> cases isCut
      · cases isCut
  | (.fromInt _, _, _), .const t =>
      rw [isChain] at isCut
      change numeralAction isBack isOnly (.const t) = _ at isCut
      rw [numeralAction] at isCut
      generalize (if isBack then t.getLastD 0 else t.headD 0) = first at isCut
      split at isCut <;> split at isCut <;> cases isCut
  | (.const _, _, _), .var _ | (.const _, _, _), .concat _ | (.const _, _, _), .unit _
  | (.const _, _, _), .substr _ _ _ | (.const _, _, _), .replace _ _ _ | (.const _, _, _), .fromInt _
  | (.fromInt _, _, _), .var _ | (.fromInt _, _, _), .concat _ | (.fromInt _, _, _), .unit _
  | (.fromInt _, _, _), .substr _ _ _ | (.fromInt _, _, _), .replace _ _ _ | (.fromInt _, _, _), .fromInt _
  | (.var _, _, _), _ | (.concat _, _, _), _ | (.unit _, _, _), _ | (.substr _ _ _, _, _), _
  | (.replace _ _ _, _, _), _ =>
      rw [isChain] at isCut
      cases isCut

-- What the passes keep

theorem wordOf_endpoint {terms : List StringTerm} {cmp : StringTerm} (isEndpoint : endpoint? isBack terms = some cmp)
    : orient isBack (wordOf A terms)
      = orient isBack (cmp.eval A) ++ orient isBack (wordOf A (if isBack then terms.dropLast else terms.tail)) := by
  cases isBack with
  | false =>
      obtain ⟨rest, rfl⟩ := List.head?_eq_some_iff.mp isEndpoint
      rfl
  | true =>
      obtain ⟨rest, rfl⟩ := List.getLast?_eq_some_iff.mp isEndpoint
      simp only [orient, if_true, List.dropLast_concat, wordOf_append, wordOf_singleton, List.reverse_append]

theorem endpoint_mem {terms : List StringTerm} {cmp : StringTerm} (isEndpoint : endpoint? isBack terms = some cmp)
    : cmp ∈ terms := by
  cases isBack with
  | false => exact List.mem_of_head? isEndpoint
  | true => exact List.mem_of_getLast? isEndpoint

/-- The word is the same with what has been removed, and contains a word if it did before. -/
structure Kept (A : Assignment) (n2 : List StringTerm) (e e' : Endpoints) : Prop where
  parts : wordOf A e'.nb ++ wordOf A e'.n1 ++ wordOf A e'.ne = wordOf A e.nb ++ wordOf A e.n1 ++ wordOf A e.ne
  contains : wordOf A n2 <:+: wordOf A e'.n1 ↔ wordOf A n2 <:+: wordOf A e.n1

theorem Kept.refl {n2 : List StringTerm} (e : Endpoints) : Kept A n2 e e := ⟨rfl, Iff.rfl⟩

theorem Kept.trans {n2 : List StringTerm} {e e' e'' : Endpoints} (first : Kept A n2 e e') (second : Kept A n2 e' e'')
    : Kept A n2 e e'' :=
  ⟨second.parts.trans first.parts, second.contains.trans first.contains⟩

section Step

variable {e : Endpoints} {n2 : List StringTerm}

/-- Cutting an endpoint moves characters between the parts and keeps the word. -/
theorem cut_parts {s : Word} {overlap : Nat} (isEndpoint : endpoint? isBack e.n1 = some (.const s))
    (within : overlap ≤ s.length) (isFirst : isBack = true → e.ne = [])
    : wordOf A (e.cut isBack s overlap).nb ++ wordOf A (e.cut isBack s overlap).n1
        ++ wordOf A (e.cut isBack s overlap).ne
      = wordOf A e.nb ++ wordOf A e.n1 ++ wordOf A e.ne := by
  obtain ⟨n1, nb, ne, changed⟩ := e
  cases isBack with
  | false =>
      obtain ⟨rest, rfl⟩ := List.head?_eq_some_iff.mp isEndpoint
      have halves : Word.prefixOf s (s.length - overlap) ++ Word.suffixOf s overlap = s := List.take_append_drop _ _
      simp only [Endpoints.cut, Bool.false_eq_true, if_false, wordOf_append, wordOf_cons, wordOf_nil, eval_const,
        List.tail_cons, List.append_nil, List.append_assoc]
      rw [← List.append_assoc (Word.prefixOf _ _), halves]
  | true =>
      obtain ⟨rest, rfl⟩ := List.getLast?_eq_some_iff.mp isEndpoint
      obtain rfl := isFirst rfl
      have halves : Word.prefixOf s overlap ++ Word.suffixOf s (s.length - overlap) = s := by
        rw [Word.suffixOf, Nat.sub_sub_self within]
        exact List.take_append_drop _ _
      simp only [Endpoints.cut, if_true, wordOf_append, wordOf_cons, wordOf_nil, eval_const, List.dropLast_concat,
        List.append_nil, List.nil_append, List.append_assoc]
      rw [halves]

theorem cut_n1 {s : Word} {overlap : Nat} (isEndpoint : endpoint? isBack e.n1 = some (.const s))
    (within : overlap ≤ s.length)
    : orient isBack (wordOf A (e.cut isBack s overlap).n1)
      = (orient isBack (wordOf A e.n1)).drop (s.length - overlap) := by
  rw [wordOf_endpoint isEndpoint, eval_const, List.drop_append_of_le_length (by rw [length_orient]; omega)]
  cases isBack with
  | false => rfl
  | true =>
      simp only [Endpoints.cut, orient, if_true, wordOf_append, wordOf_singleton, eval_const, List.reverse_append]
      rw [List.drop_reverse, Nat.sub_sub_self within, Word.prefixOf]

theorem remove_parts {n1cmp : StringTerm} (isEndpoint : endpoint? isBack e.n1 = some n1cmp)
    (isFirst : isBack = true → e.ne = [])
    : wordOf A (e.remove isBack n1cmp).nb ++ wordOf A (e.remove isBack n1cmp).n1
        ++ wordOf A (e.remove isBack n1cmp).ne
      = wordOf A e.nb ++ wordOf A e.n1 ++ wordOf A e.ne := by
  obtain ⟨n1, nb, ne, changed⟩ := e
  cases isBack with
  | false =>
      obtain ⟨rest, rfl⟩ := List.head?_eq_some_iff.mp isEndpoint
      simp only [Endpoints.remove, Bool.false_eq_true, if_false, wordOf_append, wordOf_cons, wordOf_nil,
        List.tail_cons, List.append_nil, List.append_assoc]
  | true =>
      obtain ⟨rest, rfl⟩ := List.getLast?_eq_some_iff.mp isEndpoint
      obtain rfl := isFirst rfl
      simp only [Endpoints.remove, if_true, wordOf_append, wordOf_nil, List.dropLast_concat, List.append_nil,
        List.nil_append, List.append_assoc]

theorem remove_n1 {n1cmp : StringTerm} (isEndpoint : endpoint? isBack e.n1 = some n1cmp)
    : orient isBack (wordOf A (e.remove isBack n1cmp).n1)
      = (orient isBack (wordOf A e.n1)).drop (n1cmp.eval A).length := by
  rw [wordOf_endpoint isEndpoint, List.drop_left' (length_orient _)]
  cases isBack <;> rfl

/-- What an action removes does not change what is contained. -/
theorem contains_of_removed (e' : Endpoints) {n1cmp n2cmp : StringTerm} (noEmpty : .const [] ∉ n2)
    (isEndpoint1 : endpoint? isBack e.n1 = some n1cmp) (isEndpoint2 : endpoint? isBack n2 = some n2cmp)
    (within : (endpointAction isBack (e.n1.length == 1) n1cmp n2cmp).removed (n1cmp.eval A) ≤ (n1cmp.eval A).length)
    (n1 : orient isBack (wordOf A e'.n1)
      = (orient isBack (wordOf A e.n1)).drop
          ((endpointAction isBack (e.n1.length == 1) n1cmp n2cmp).removed (n1cmp.eval A)))
    : wordOf A n2 <:+: wordOf A e'.n1 ↔ wordOf A n2 <:+: wordOf A e.n1 := by
  rw [← orient_isInfix isBack, n1, ← orient_isInfix isBack (w := wordOf A e.n1)]
  have isSplit := wordOf_endpoint (A := A) isEndpoint1
  have inLength : (n1cmp.eval A).length ≤ (orient isBack (wordOf A e.n1)).length := by
    rw [isSplit, List.length_append, length_orient]
    exact Nat.le_add_right _ _
  refine isInfix_drop_iff (le_trans within inLength) fun p occurs => ?_
  rw [isSplit, wordOf_endpoint isEndpoint2] at occurs
  refine endpointAction_le (fun isNil => noEmpty (isNil ▸ endpoint_mem isEndpoint2)) (fun isOnly => ?_) occurs
  obtain ⟨only, isSingleton⟩ := List.length_eq_one_iff.mp (beq_iff_eq.mp isOnly)
  rw [isSingleton]
  cases isBack <;> rfl

/-- A pass keeps the word and what it contains. -/
theorem stripEndpoint_kept (isBack : Bool) (noEmpty : .const [] ∉ n2) (isFirst : isBack = true → e.ne = [])
    : Kept A n2 e (stripEndpoint n2 isBack e).1 := by
  rw [stripEndpoint]
  match isEndpoint1 : endpoint? isBack e.n1, isEndpoint2 : endpoint? isBack n2 with
  | none, _ | some _, none => exact Kept.refl e
  | some n1cmp, some n2cmp =>
      simp only
      split
      · exact Kept.refl e
      · have contains := fun e' => contains_of_removed (A := A) e' noEmpty isEndpoint1 isEndpoint2
        match isAction : endpointAction isBack (e.n1.length == 1) n1cmp n2cmp with
        | .keep => exact Kept.refl e
        | .cut s overlap =>
            obtain ⟨rfl, within⟩ := endpointAction_cut isAction
            refine ⟨cut_parts isEndpoint1 within isFirst, contains _ ?_ ?_⟩
            · rw [isAction, eval_const]
              exact Nat.sub_le _ _
            · rw [isAction, eval_const]
              exact cut_n1 isEndpoint1 within
        | .removeComponent =>
            refine ⟨remove_parts isEndpoint1 isFirst, contains _ ?_ ?_⟩
            · rw [isAction]
              exact le_refl _
            · rw [isAction]
              exact remove_n1 isEndpoint1

/-- The first pass removes nothing at the end. -/
theorem stripEndpoint_ne : (stripEndpoint n2 false e).1.ne = e.ne := by
  rw [stripEndpoint]
  split
  · split
    · rfl
    · split <;> rfl
  · rfl

end Step

/-- What is removed from the end points is what no word can be matched with, and is put into `nb` and `ne`. -/
theorem stripConstantEndpoints_sound (A : Assignment) (n1 n2 : List StringTerm) (dir : Int) (noEmpty : .const [] ∉ n2)
    : let stripped := (stripConstantEndpoints n1 n2 dir).1
      (wordOf A n2 <:+: wordOf A n1 ↔ wordOf A n2 <:+: wordOf A stripped.n1)
        ∧ wordOf A n1 = wordOf A stripped.nb ++ wordOf A stripped.n1 ++ wordOf A stripped.ne := by
  have kept : Kept A n2 ⟨n1, [], [], false⟩ (stripConstantEndpoints n1 n2 dir).1 := by
    have first : ∀ e r, (if dir = 0 ∨ dir = 1 then stripEndpoint n2 false ⟨n1, [], [], false⟩
          else (⟨n1, [], [], false⟩, none)) = (e, r) → Kept A n2 ⟨n1, [], [], false⟩ e ∧ e.ne = [] := by
      intro e r isFirst
      split at isFirst
      · rw [← show _ = e from congrArg Prod.fst isFirst]
        exact ⟨stripEndpoint_kept false noEmpty (fun isBack => nomatch isBack), stripEndpoint_ne⟩
      · rw [← show _ = e from congrArg Prod.fst isFirst]
        exact ⟨Kept.refl _, rfl⟩
    rw [stripConstantEndpoints]
    split
    · rename_i e changed isFirst
      exact (first e _ isFirst).1
    · rename_i e isFirst
      obtain ⟨keptFirst, noEnd⟩ := first e _ isFirst
      have second := stripEndpoint_kept (A := A) true noEmpty (fun _ => noEnd)
      split
      · split
        · rename_i e' changed isSecond
          rw [← show _ = e' from congrArg Prod.fst isSecond]
          exact keptFirst.trans second
        · rename_i e' isSecond
          rw [← show _ = e' from congrArg Prod.fst isSecond]
          exact keptFirst.trans second
      · exact keptFirst
  exact ⟨kept.contains.symm, by simpa using kept.parts.symm⟩

/-- `"abc" ++ x ++ str.from_int(i)` and `"cd" ++ y ++ "a0b"`. -/
theorem stripConstantEndpoints_sound_both_ends
    : let A : Assignment := ⟨fun _ => [100, 97, 48, 98], fun _ => 7⟩
      let n1 := [.const [97, 98, 99], .var 0, .fromInt (.var 0)]
      let n2 := [.const [99, 100], .var 1, .const [97, 48, 98]]
      (stripConstantEndpoints n1 n2 0).1.n1 = [.const [99], .var 0]
        ∧ (wordOf A n2 <:+: wordOf A n1 ↔ wordOf A n2 <:+: wordOf A [.const [99], .var 0]) :=
  ⟨by decide, (stripConstantEndpoints_sound ⟨fun _ => [100, 97, 48, 98], fun _ => 7⟩
    [.const [97, 98, 99], .var 0, .fromInt (.var 0)] [.const [99, 100], .var 1, .const [97, 48, 98]] 0 (by decide)).1⟩

end Ava6.Strings
