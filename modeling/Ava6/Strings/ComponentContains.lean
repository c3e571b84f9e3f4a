import Ava6.Strings.ArithEntail
import Ava6.Strings.Word

/-! Whether the components of a concatenation contain those of another one, and what remains before and after these.
-/

namespace Ava6.Strings

open Library.Occurrence

/-- A test for containment, which may tell that a term contains another one. -/
structure StringsEntail extends ArithEntail where
  checkContains : StringTerm → StringTerm → Option Bool
  isInfix_of_checkContains
    : ∀ (A : Assignment) (a b : StringTerm), checkContains a b = some true → b.eval A <:+: a.eval A

/-- No containment is known but that of a term in itself. -/
instance : Inhabited StringsEntail where
  default :=
    { (default : ArithEntail) with
      checkContains := fun a b => if a = b then some true else none
      isInfix_of_checkContains := by
        intro A a b checked
        split at checked
        · rename_i same
          rw [same]
        · cases checked }

/-- The terms before and after a term in another one; none if they are empty or have not been asked for. -/
structure Remainders where
  rb : Option StringTerm
  re : Option StringTerm

/-- One constant in another one: as a suffix if `dir` is 1, as a prefix if it is -1, anywhere otherwise. -/
def constantContains (s t : Word) (dir : Int) (computeRemainder : Bool) : Option Remainders :=
  let len1 := s.length
  let len2 := t.length
  if len2 < len1 then
    if dir = 1 then
      if Word.suffixOf s len2 = t then
        some ⟨if computeRemainder then some (.const (Word.prefixOf s (len1 - len2))) else none, none⟩
      else none
    else if dir = -1 then
      if Word.prefixOf s len2 = t then
        some ⟨none, if computeRemainder then some (.const (Word.suffixOf s (len1 - len2))) else none⟩
      else none
    else
      (Word.find s t 0).map fun f =>
        ⟨if computeRemainder ∧ 0 < f then some (.const (Word.prefixOf s f)) else none,
          if computeRemainder ∧ f + len2 < len1 then some (.const (Word.suffixOf s (len1 - (f + len2)))) else none⟩
  else none

variable (sent : StringsEntail)

/-- A term that contains a substring of it. -/
def containsSubstr (n1 : StringTerm) (dir : Int) : StringTerm → Bool
  | .substr s start length =>
      if s = n1 then
        if dir = 1 then sent.checkGeq (.add (.cons start (.cons length .nil))) (.length s)
        else if dir = -1 then start = .const 0
        else true
      else false
  | _ => false

/-- A replacement that contains a term whether or not anything is replaced. -/
def containsInReplace (n2 : StringTerm) : StringTerm → Bool
  | .replace s _ replacement =>
      sent.checkContains s n2 = some true && sent.checkContains replacement n2 = some true
  | _ => false

def componentContainsBase (isExt : Bool) (n1 n2 : StringTerm) (dir : Int) (computeRemainder : Bool)
    : Option Remainders :=
  if n1 = n2 then some ⟨none, none⟩
  else
    match n1, n2 with
    | .const s, .const t => constantContains s t dir computeRemainder
    | n1, n2 =>
        -- the remainders of the other cases would be new terms
        if !isExt || computeRemainder then none
        else if containsSubstr sent n1 dir n2 then some ⟨none, none⟩
        else if dir = 0 ∧ containsInReplace sent n2 n1 then some ⟨none, none⟩
        else none

/-- The index that is returned, and the vectors that are changed. -/
structure Containment where
  index : Nat
  n1 : List StringTerm
  nb : List StringTerm
  ne : List StringTerm

/-- The rest of `n1` for a single component that is contained in the one at `i`. -/
def remainderSingleton (n1 : List StringTerm) (t : StringTerm) (i : Nat) (found : Remainders) (remainderDir : Int)
    : Containment :=
  let n1 := n1.set i t
  let ne := if remainderDir ≠ -1 then found.re.toList ++ n1.drop (i + 1) else []
  let n1 :=
    if remainderDir ≠ -1 then n1.take (i + 1)
    else match found.re with
      | some re => n1.set i (.concat (.ofList [t, re]))
      | none => n1
  let nb := if remainderDir ≠ 1 then n1.take i ++ found.rb.toList else []
  let n1 :=
    if remainderDir ≠ 1 then n1.drop i
    else match found.rb with
      | some rb => n1.set i (.concat (.ofList [rb, t]))
      | none => n1
  ⟨i, n1, nb, ne⟩

/-- The components after the first one: the last one must be a prefix, the others equal. -/
def containsRest (isExt computeRemainder : Bool) (remainderDir : Int)
    : List StringTerm → List StringTerm → Option Remainders
  | n1j :: _, [n2j] =>
      componentContainsBase sent isExt n1j n2j (-1) (computeRemainder && decide (remainderDir ≠ -1))
  | n1j :: n1, n2j :: n2 => if n1j = n2j then containsRest isExt computeRemainder remainderDir n1 n2 else none
  | [], _ => none
  | _ :: _, [] => none

/-- The rest of `n1` for components that start at `i`. -/
def remainderList (n1 n2 : List StringTerm) (i : Nat) (first last : Remainders) (remainderDir : Int) : Containment :=
  let j := n2.length - 1
  let ne := if remainderDir ≠ -1 then last.re.toList ++ n1.drop (i + j + 1) else []
  let n1 := if remainderDir ≠ -1 then (n1.take (i + j + 1)).set (i + j) (n2.getD j (.const [])) else n1
  let nb := if remainderDir ≠ 1 then (n1.set i (n2.getD 0 (.const []))).take i ++ first.rb.toList else []
  let n1 := if remainderDir ≠ 1 then (n1.set i (n2.getD 0 (.const []))).drop i else n1
  ⟨i, n1, nb, ne⟩

def containsAt (isExt : Bool) (n1 n2 : List StringTerm) (computeRemainder : Bool) (remainderDir : Int) (i : Nat)
    : Option Containment :=
  match n1.drop i, n2 with
  | c :: _, [t] =>
      (componentContainsBase sent isExt c t 0 computeRemainder).map fun found =>
        if computeRemainder then remainderSingleton n1 t i found remainderDir else ⟨i, n1, [], []⟩
  | c :: rest, t :: n2' =>
      -- first component of `n2` must be a suffix
      match componentContainsBase sent isExt c t 1 (computeRemainder && decide (remainderDir ≠ 1)) with
      | none => none
      | some first =>
          (containsRest sent isExt computeRemainder remainderDir rest n2').map fun last =>
            if computeRemainder then remainderList n1 n2 i first last remainderDir else ⟨i, n1, [], []⟩
  | _, _ => none

/-- The first index from which on `n1` contains `n2`. -/
def componentContainsInternal (isExt : Bool) (n1 n2 : List StringTerm) (computeRemainder : Bool) (remainderDir : Int)
    : Option Containment :=
  if n2.length = 1 then (List.range n1.length).findSome? (containsAt sent isExt n1 n2 computeRemainder remainderDir)
  else if n2.length ≤ n1.length then
    (List.range (n1.length - n2.length + 1)).findSome? (containsAt sent isExt n1 n2 computeRemainder remainderDir)
  else none

-- What one component tells

variable {sent} {A : Assignment} {dir : Int} {computeRemainder : Bool}

/-- What is found about two components. -/
structure Contains (A : Assignment) (n1 n2 : StringTerm) (dir : Int) (computeRemainder : Bool) (found : Remainders)
    : Prop where
  isInfix : n2.eval A <:+: n1.eval A
  isSuffix : dir = 1 → n2.eval A <:+ n1.eval A
  isPrefix : dir = -1 → n2.eval A <+: n1.eval A
  noEnd : dir = 1 → found.re = none
  noBegin : dir = -1 → found.rb = none
  parts
    : computeRemainder = true → n1.eval A = wordOf A found.rb.toList ++ n2.eval A ++ wordOf A found.re.toList

theorem Contains.refl (n : StringTerm) : Contains A n n dir computeRemainder ⟨none, none⟩ where
  isInfix := List.infix_rfl
  isSuffix _ := List.suffix_rfl
  isPrefix _ := List.prefix_rfl
  noEnd _ := rfl
  noBegin _ := rfl
  parts _ := by simp

/-- Terms that are only compared where no remainder is asked for. -/
theorem Contains.of_not_computeRemainder {n1 n2 : StringTerm} (isInfix : n2.eval A <:+: n1.eval A)
    (isSuffix : dir = 1 → n2.eval A <:+ n1.eval A) (isPrefix : dir = -1 → n2.eval A <+: n1.eval A)
    : Contains A n1 n2 dir false ⟨none, none⟩ where
  isInfix := isInfix
  isSuffix := isSuffix
  isPrefix := isPrefix
  noEnd _ := rfl
  noBegin _ := rfl
  parts isComputed := nomatch isComputed

/-- An empty remainder is left out. -/
theorem wordOf_constant_if {p : Prop} [Decidable p] {w : Word} (isComputed : computeRemainder = true)
    (isEmpty : ¬p → w = [])
    : wordOf A (if computeRemainder = true ∧ p then some (StringTerm.const w) else none).toList = w := by
  by_cases holds : p
  · rw [if_pos ⟨isComputed, holds⟩]
    exact (wordOf_singleton _).trans (eval_const w)
  · rw [if_neg fun both => holds both.2, isEmpty holds]
    rfl

theorem suffixOf_isSuffix (s : Word) (i : Nat) : Word.suffixOf s i <:+ s := List.drop_suffix _ _

theorem prefixOf_isPrefix (s : Word) (i : Nat) : Word.prefixOf s i <+: s := List.take_prefix _ _

theorem contains_of_constantContains {s t : Word} {found : Remainders}
    (isFound : constantContains s t dir computeRemainder = some found)
    : Contains A (.const s) (.const t) dir computeRemainder found := by
  rw [constantContains] at isFound
  split at isFound
  · rename_i isShorter
    split at isFound
    · rename_i isEnd
      split at isFound
      · rename_i same
        cases isFound
        have isSuffix : t <:+ s := by
          rw [← same]
          exact suffixOf_isSuffix s _
        refine ⟨?_, fun _ => ?_, fun isBegin => ?_, fun _ => rfl, fun isBegin => ?_, fun isComputed => ?_⟩
        · simpa using isSuffix.isInfix
        · simpa using isSuffix
        · omega
        · omega
        · have halves : Word.prefixOf s (s.length - t.length) ++ Word.suffixOf s t.length = s :=
            List.take_append_drop _ _
          rw [same] at halves
          simp [isComputed, wordOf, halves]
      · cases isFound
    · split at isFound
      · rename_i isBegin
        split at isFound
        · rename_i same
          cases isFound
          have isPrefix : t <+: s := by
            rw [← same]
            exact prefixOf_isPrefix s _
          refine ⟨?_, fun isEnd => ?_, fun _ => ?_, fun isEnd => ?_, fun _ => rfl, fun isComputed => ?_⟩
          · simpa using isPrefix.isInfix
          · omega
          · simpa using isPrefix
          · omega
          · have halves : Word.prefixOf s t.length ++ Word.suffixOf s (s.length - t.length) = s := by
              rw [Word.suffixOf, Nat.sub_sub_self (le_of_lt isShorter)]
              exact List.take_append_drop _ _
            rw [same] at halves
            simp [isComputed, wordOf, halves]
        · cases isFound
      · rename_i notEnd notBegin
        obtain ⟨f, isFoundAt, rfl⟩ := Option.map_eq_some_iff.mp isFound
        obtain ⟨-, occurs, -⟩ := Word.find_eq_some isFoundAt
        refine ⟨?_, fun isEnd => absurd isEnd notEnd, fun isBegin => absurd isBegin notBegin,
          fun isEnd => absurd isEnd notEnd, fun isBegin => absurd isBegin notBegin, fun isComputed => ?_⟩
        · simpa using occurs.isInfix
        · obtain ⟨u, v, rfl, rfl⟩ := occurs
          have before : Word.prefixOf (u ++ t ++ v) u.length = u := by
            rw [Word.prefixOf, List.append_assoc, List.take_left]
          have after : Word.suffixOf (u ++ t ++ v) ((u ++ t ++ v).length - (u.length + t.length)) = v := by
            rw [Word.suffixOf, Nat.sub_sub_self (by simp), ← List.length_append, List.drop_left]
          rw [before, after, wordOf_constant_if isComputed, wordOf_constant_if isComputed, eval_const, eval_const]
          · intro noEnd
            simp only [List.length_append] at noEnd
            exact List.eq_nil_of_length_eq_zero (by omega)
          · intro noBegin
            exact List.eq_nil_of_length_eq_zero (by omega)
  · cases isFound

theorem contains_of_containsSubstr {n1 n2 : StringTerm} (isFound : containsSubstr sent n1 dir n2 = true)
    : Contains A n1 n2 dir false ⟨none, none⟩ := by
  match n2 with
  | .const _ | .var _ | .concat _ | .unit _ | .replace _ _ _ | .fromInt _ => cases isFound
  | .substr s start length =>
      rw [containsSubstr] at isFound
      split at isFound
      · rename_i isSame
        subst isSame
        refine .of_not_computeRemainder ?_ (fun isEnd => ?_) (fun isBegin => ?_)
        · rw [StringTerm.eval]
          exact Word.substr_isInfix _ _ _
        · rw [if_pos isEnd] at isFound
          have reaches := sent.le_of_checkGeq (A := A) isFound
          simp only [IntTerm.eval, IntTerms.sum] at reaches
          rw [StringTerm.eval]
          exact Word.substr_isSuffix (by omega)
        · rw [if_neg (by omega), if_pos isBegin, decide_eq_true_eq] at isFound
          rw [StringTerm.eval, isFound, IntTerm.eval]
          exact Word.substr_zero_isPrefix _ _
      · cases isFound

theorem isInfix_of_containsInReplace {n1 n2 : StringTerm} (isFound : containsInReplace sent n2 n1 = true)
    : n2.eval A <:+: n1.eval A := by
  match n1 with
  | .const _ | .var _ | .concat _ | .unit _ | .substr _ _ _ | .fromInt _ => cases isFound
  | .replace s t replacement =>
      rw [containsInReplace, Bool.and_eq_true, decide_eq_true_eq, decide_eq_true_eq] at isFound
      rw [StringTerm.eval]
      exact Word.isInfix_replace (sent.isInfix_of_checkContains A _ _ isFound.1)
        (sent.isInfix_of_checkContains A _ _ isFound.2)

/-- A component that is found to contain another does, with the remainders where they are asked for, by
cases on the kinds.
-/
theorem contains_of_componentContainsBase {isExt : Bool} {n1 n2 : StringTerm} {found : Remainders}
    (isFound : componentContainsBase sent isExt n1 n2 dir computeRemainder = some found)
    : Contains A n1 n2 dir computeRemainder found := by
  unfold componentContainsBase at isFound
  split at isFound
  · rename_i same
    cases isFound
    rw [same]
    exact Contains.refl n2
  · split at isFound
    · exact contains_of_constantContains isFound
    · split at isFound
      · cases isFound
      · rename_i noRemainder
        obtain rfl : computeRemainder = false := by simp_all
        split at isFound
        · rename_i inSubstr
          cases isFound
          exact contains_of_containsSubstr inSubstr
        · split at isFound
          · rename_i inReplace
            cases isFound
            obtain ⟨rfl, contained⟩ := inReplace
            exact .of_not_computeRemainder (isInfix_of_containsInReplace contained) (fun isEnd => by cases isEnd)
              (fun isBegin => by cases isBegin)
          · cases isFound

-- What the lists tell

section Lists

variable {isExt : Bool} {remainderDir : Int}

theorem containsRest_eq_some {n1 n2 : List StringTerm} {last : Remainders}
    (isFound : containsRest sent isExt computeRemainder remainderDir n1 n2 = some last)
    : ∃ mid cl tl post, n1 = mid ++ cl :: post ∧ n2 = mid ++ [tl]
      ∧ componentContainsBase sent isExt cl tl (-1) (computeRemainder && decide (remainderDir ≠ -1)) = some last := by
  match n1, n2 with
  | [], _ => cases isFound
  | _ :: _, [] => cases isFound
  | cl :: post, [tl] => exact ⟨[], cl, tl, post, rfl, rfl, isFound⟩
  | n1j :: n1, n2j :: second :: rest =>
      rw [containsRest] at isFound
      · split at isFound
        · rename_i same
          subst same
          obtain ⟨mid, cl, tl, post, rfl, isRest, isLast⟩ := containsRest_eq_some isFound
          exact ⟨n1j :: mid, cl, tl, post, rfl, by rw [isRest]; rfl, isLast⟩
        · cases isFound
      · simp

/-- What is returned: the word contains that of `n2` and, if asked for, is what was before, `n1` as changed and what was
after.
-/
structure Decomposes (A : Assignment) (n1 n2 : List StringTerm) (computeRemainder : Bool) (remainderDir : Int)
    (found : Containment)
    : Prop where
  isInfix : wordOf A n2 <:+: wordOf A n1
  parts
    : computeRemainder = true → wordOf A n1 = wordOf A found.nb ++ wordOf A found.n1 ++ wordOf A found.ne
  exact : computeRemainder = true → remainderDir ≠ 1 → remainderDir ≠ -1 → found.n1 = n2
  isSuffix : computeRemainder = true → remainderDir = 1 → wordOf A n2 <:+ wordOf A found.n1
  isPrefix : computeRemainder = true → remainderDir = -1 → wordOf A n2 <+: wordOf A found.n1

theorem eval_concat_pair (s t : StringTerm) : (StringTerm.concat (.ofList [s, t])).eval A = s.eval A ++ t.eval A := by
  rw [eval_concat, StringTerms.toList_ofList, wordOf_cons, wordOf_singleton]

theorem decomposes_remainderSingleton {pre post : List StringTerm} {c t : StringTerm} {found : Remainders}
    (base : Contains A c t 0 true found)
    : Decomposes A (pre ++ c :: post) [t] true remainderDir
        (remainderSingleton (pre ++ c :: post) t pre.length found remainderDir) := by
  have parts := base.parts rfl
  have contained : wordOf A [t] <:+: wordOf A (pre ++ c :: post) := by
    rw [wordOf_singleton, wordOf_append, wordOf_cons]
    exact (base.isInfix.trans (List.prefix_append _ _).isInfix).trans (List.suffix_append _ _).isInfix
  by_cases isEnd : remainderDir = 1
  · subst isEnd
    obtain ⟨last, isResult, isLast⟩ : ∃ last,
        remainderSingleton (pre ++ c :: post) t pre.length found 1
          = ⟨pre.length, pre ++ [last], [], found.re.toList ++ post⟩
        ∧ last.eval A = wordOf A found.rb.toList ++ t.eval A := by
      obtain ⟨rb, re⟩ := found
      cases rb with
      | none =>
          refine ⟨t, ?_, rfl⟩
          simp [remainderSingleton, List.take_append]
      | some rb =>
          refine ⟨.concat (.ofList [rb, t]), ?_, ?_⟩
          · simp [remainderSingleton, List.take_append]
          · rw [eval_concat_pair]
            exact congrArg (· ++ _) (wordOf_singleton rb).symm
    rw [isResult]
    refine ⟨contained, fun _ => ?_, fun _ notEnd => absurd rfl notEnd, fun _ _ => ?_, fun _ isBegin => absurd isBegin (by decide)⟩
    · simp only [wordOf_append, wordOf_cons, wordOf_nil, parts, isLast, List.append_assoc, List.append_nil,
        List.nil_append]
    · rw [wordOf_append, wordOf_singleton, wordOf_singleton, isLast, ← List.append_assoc]
      exact List.suffix_append _ _
  · by_cases isBegin : remainderDir = -1
    · subst isBegin
      obtain ⟨first, isResult, isFirst⟩ : ∃ first,
          remainderSingleton (pre ++ c :: post) t pre.length found (-1)
            = ⟨pre.length, first :: post, pre ++ found.rb.toList, []⟩
          ∧ first.eval A = t.eval A ++ wordOf A found.re.toList := by
        obtain ⟨rb, re⟩ := found
        cases re with
        | none =>
            refine ⟨t, ?_, (List.append_nil _).symm⟩
            simp [remainderSingleton]
        | some re =>
            refine ⟨.concat (.ofList [t, re]), ?_, ?_⟩
            · simp [remainderSingleton]
            · rw [eval_concat_pair]
              exact congrArg (_ ++ ·) (wordOf_singleton re).symm
      rw [isResult]
      refine ⟨contained, fun _ => ?_, fun _ _ notBegin => absurd rfl notBegin,
        fun _ isEnd => absurd isEnd (by decide), fun _ _ => ?_⟩
      · simp only [wordOf_append, wordOf_cons, wordOf_nil, parts, isFirst, List.append_assoc, List.append_nil]
      · rw [wordOf_singleton, wordOf_cons, isFirst, List.append_assoc]
        exact List.prefix_append _ _
    · have isResult : remainderSingleton (pre ++ c :: post) t pre.length found remainderDir
          = ⟨pre.length, [t], pre ++ found.rb.toList, found.re.toList ++ post⟩ := by
        simp [remainderSingleton, isEnd, isBegin, List.take_append, List.drop_append]
      rw [isResult]
      refine ⟨contained, fun _ => ?_, fun _ _ _ => rfl, fun _ isEnd' => absurd isEnd' isEnd,
        fun _ isBegin' => absurd isBegin' isBegin⟩
      simp only [wordOf_append, wordOf_cons, wordOf_nil, parts, List.append_assoc, List.append_nil]

/-- The end of `n1` is cut off after the last component that was compared, which is replaced. -/
theorem remainderList_eq (pre mid post : List StringTerm) (c cl t tl : StringTerm) (first last : Remainders)
    (remainderDir : Int)
    : remainderList (pre ++ c :: (mid ++ cl :: post)) (t :: (mid ++ [tl])) pre.length first last remainderDir
      = ⟨pre.length,
          (if remainderDir ≠ 1 then [t] else pre ++ [c])
            ++ mid ++ (if remainderDir ≠ -1 then [tl] else cl :: post),
          if remainderDir ≠ 1 then pre ++ first.rb.toList else [],
          if remainderDir ≠ -1 then last.re.toList ++ post else []⟩ := by
  have whole : pre ++ c :: (mid ++ cl :: post) = (pre ++ c :: mid) ++ cl :: post := by simp
  have atLast : pre.length + ((t :: (mid ++ [tl])).length - 1) = (pre ++ c :: mid).length := by simp
  have lastOf : (t :: (mid ++ [tl])).getD ((t :: (mid ++ [tl])).length - 1) (.const []) = tl := by simp
  have cutAfter : ((pre ++ c :: mid) ++ cl :: post).drop ((pre ++ c :: mid).length + 1) = post := by
    rw [List.drop_append, List.drop_of_length_le (Nat.le_succ _)]
    simp
  have cutBefore : (((pre ++ c :: mid) ++ cl :: post).take ((pre ++ c :: mid).length + 1)).set (pre ++ c :: mid).length tl
      = (pre ++ c :: mid) ++ [tl] := by
    rw [List.take_append, List.take_of_length_le (Nat.le_succ _)]
    simp
  simp only [remainderList, atLast, lastOf, whole, cutAfter, cutBefore]
  by_cases isEnd : remainderDir = 1
  · subst isEnd
    simp
  · by_cases isBegin : remainderDir = -1
    · subst isBegin
      simp
    · simp [isEnd, isBegin]

/-- A suffix of the first component, equal ones and a prefix of the last component. -/
theorem isInfix_of_endpoints {pre mid post : List StringTerm} {c cl t tl : StringTerm} {first last : Remainders}
    {ofFirst ofLast : Bool} (isFirst : Contains A c t 1 ofFirst first) (isLast : Contains A cl tl (-1) ofLast last)
    : wordOf A (t :: (mid ++ [tl])) <:+: wordOf A (pre ++ c :: (mid ++ cl :: post)) := by
  obtain ⟨start, isStart⟩ := isFirst.isSuffix rfl
  obtain ⟨tail, isTail⟩ := isLast.isPrefix rfl
  refine ⟨wordOf A pre ++ start, tail ++ wordOf A post, ?_⟩
  simp only [wordOf_append, wordOf_cons, wordOf_nil, ← isStart, ← isTail, List.append_assoc, List.append_nil]

/-- Where several components match, the remainders of the first and the last are put around them. -/
theorem decomposes_remainderList {pre mid post : List StringTerm} {c cl t tl : StringTerm} {first last : Remainders}
    (ofFirst : Contains A c t 1 (decide (remainderDir ≠ 1)) first)
    (ofLast : Contains A cl tl (-1) (decide (remainderDir ≠ -1)) last)
    : Decomposes A (pre ++ c :: (mid ++ cl :: post)) (t :: (mid ++ [tl])) true remainderDir
        (remainderList (pre ++ c :: (mid ++ cl :: post)) (t :: (mid ++ [tl])) pre.length first last remainderDir) := by
  obtain ⟨start, isStart⟩ := ofFirst.isSuffix rfl
  obtain ⟨tail, isTail⟩ := ofLast.isPrefix rfl
  have contained : wordOf A (t :: (mid ++ [tl])) <:+: wordOf A (pre ++ c :: (mid ++ cl :: post)) :=
    isInfix_of_endpoints ofFirst ofLast
  have partsFirst : remainderDir ≠ 1 → c.eval A = wordOf A first.rb.toList ++ t.eval A := by
    intro notEnd
    have parts := ofFirst.parts (decide_eq_true notEnd)
    rwa [ofFirst.noEnd rfl, Option.toList_none, wordOf_nil, List.append_nil] at parts
  have partsLast : remainderDir ≠ -1 → cl.eval A = tl.eval A ++ wordOf A last.re.toList := by
    intro notBegin
    have parts := ofLast.parts (decide_eq_true notBegin)
    rwa [ofLast.noBegin rfl, Option.toList_none, wordOf_nil, List.nil_append] at parts
  rw [remainderList_eq]
  by_cases isEnd : remainderDir = 1
  · subst isEnd
    refine ⟨contained, fun _ => ?_, fun _ notEnd => absurd rfl notEnd, fun _ _ => ⟨wordOf A pre ++ start, ?_⟩,
      fun _ isBegin => absurd isBegin (by decide)⟩
    · simp [wordOf_append, partsLast (by decide)]
    · simp [wordOf_append, ← isStart]
  · by_cases isBegin : remainderDir = -1
    · subst isBegin
      refine ⟨contained, fun _ => ?_, fun _ _ notBegin => absurd rfl notBegin,
        fun _ isEnd => absurd isEnd (by decide), fun _ _ => ⟨tail ++ wordOf A post, ?_⟩⟩
      · simp [wordOf_append, partsFirst (by decide)]
      · simp [wordOf_append, ← isTail]
    · refine ⟨contained, fun _ => ?_, fun _ _ _ => ?_, fun _ isEnd' => absurd isEnd' isEnd,
        fun _ isBegin' => absurd isBegin' isBegin⟩
      · simp [wordOf_append, isEnd, isBegin, partsFirst isEnd, partsLast isBegin]
      · simp [isEnd, isBegin]

/-- Where no remainder is asked for, the vectors stay as they are. -/
theorem decomposes_of_isInfix {n1 n2 : List StringTerm} {i : Nat} (contained : wordOf A n2 <:+: wordOf A n1)
    : Decomposes A n1 n2 false remainderDir ⟨i, n1, [], []⟩ :=
  ⟨contained, nofun, nofun, nofun, nofun⟩

theorem exists_of_drop_eq_cons {n1 post : List StringTerm} {i : Nat} {c : StringTerm} (isDrop : n1.drop i = c :: post)
    : ∃ pre, n1 = pre ++ c :: post ∧ pre.length = i := by
  refine ⟨n1.take i, ?_, List.length_take_of_le (le_of_not_ge fun beyond => ?_)⟩
  · rw [← isDrop, List.take_append_drop]
  · rw [List.drop_of_length_le beyond] at isDrop
    cases isDrop

/-- Containment at a position decomposes the vector, by the lemmas for one component and for several. -/
theorem decomposes_containsAt {n1 n2 : List StringTerm} {i : Nat} {found : Containment}
    (isFound : containsAt sent isExt n1 n2 computeRemainder remainderDir i = some found)
    : Decomposes A n1 n2 computeRemainder remainderDir found := by
  unfold containsAt at isFound
  match isDrop : n1.drop i, n2 with
  | [], _ | _ :: _, [] =>
      simp only [isDrop, reduceCtorEq] at isFound
  | c :: post, [t] =>
      obtain ⟨pre, rfl, rfl⟩ := exists_of_drop_eq_cons isDrop
      simp only [isDrop] at isFound
      obtain ⟨base, isBase, rfl⟩ := Option.map_eq_some_iff.mp isFound
      have contains := contains_of_componentContainsBase (A := A) isBase
      cases computeRemainder with
      | true => exact decomposes_remainderSingleton contains
      | false =>
          refine decomposes_of_isInfix ?_
          rw [wordOf_singleton, wordOf_append, wordOf_cons]
          exact (contains.isInfix.trans (List.prefix_append _ _).isInfix).trans (List.suffix_append _ _).isInfix
  | c :: rest, t :: second :: n2 =>
      obtain ⟨pre, rfl, rfl⟩ := exists_of_drop_eq_cons isDrop
      simp only [isDrop] at isFound
      match isBase : componentContainsBase sent isExt c t 1 (computeRemainder && decide (remainderDir ≠ 1)) with
      | none =>
          rw [isBase] at isFound
          cases isFound
      | some first =>
          rw [isBase] at isFound
          obtain ⟨last, isLast, rfl⟩ := Option.map_eq_some_iff.mp isFound
          obtain ⟨mid, cl, tl, post, rfl, isRest, isBaseLast⟩ := containsRest_eq_some isLast
          have ofFirst := contains_of_componentContainsBase (A := A) isBase
          have ofLast := contains_of_componentContainsBase (A := A) isBaseLast
          rw [isRest]
          cases computeRemainder with
          | true => exact decomposes_remainderList ofFirst ofLast
          | false => exact decomposes_of_isInfix (isInfix_of_endpoints ofFirst ofLast)

end Lists

/-- Whatever index is returned, the components contain those of `n2`, and what remains is right. -/
theorem componentContains_decomposes (sent : StringsEntail) (isExt : Bool) (n1 n2 : List StringTerm)
    (computeRemainder : Bool) (remainderDir : Int) (found : Containment)
    (isFound : componentContainsInternal sent isExt n1 n2 computeRemainder remainderDir = some found) (A : Assignment)
    : Decomposes A n1 n2 computeRemainder remainderDir found := by
  rw [componentContainsInternal] at isFound
  split at isFound
  · obtain ⟨i, -, isFoundAt⟩ := List.exists_of_findSome?_eq_some isFound
    exact decomposes_containsAt isFoundAt
  · split at isFound
    · obtain ⟨i, -, isFoundAt⟩ := List.exists_of_findSome?_eq_some isFound
      exact decomposes_containsAt isFoundAt
    · cases isFound

/-- `"cd" ++ x ++ "e"` in `"abcd" ++ x ++ "efg"`, with the remainders `"ab"` and `"fg"`. -/
theorem componentContains_decomposes_both_ends
    : Decomposes ⟨fun _ => [120], fun _ => 0⟩ [.const [97, 98, 99, 100], .var 0, .const [101, 102, 103]]
        [.const [99, 100], .var 0, .const [101]] true 0
        ⟨0, [.const [99, 100], .var 0, .const [101]], [.const [97, 98]], [.const [102, 103]]⟩ :=
  componentContains_decomposes default false [.const [97, 98, 99, 100], .var 0, .const [101, 102, 103]]
    [.const [99, 100], .var 0, .const [101]] true 0
    ⟨0, [.const [99, 100], .var 0, .const [101]], [.const [97, 98]], [.const [102, 103]]⟩ rfl
    ⟨fun _ => [120], fun _ => 0⟩

end Ava6.Strings
