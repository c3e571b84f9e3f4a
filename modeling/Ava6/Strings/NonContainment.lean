import Mathlib.Algebra.BigOperators.Group.Finset.Basic
import Mathlib.Algebra.Order.BigOperators.Group.List
import Ava6.Strings.ArithEntail
import Ava6.Strings.Word

/-! Two tests that a concatenation is not contained: by the number of times that each character must occur, and by
looking for its components in a constant from left to right.
-/

namespace Ava6.Strings

open Library.Occurrence Util.InternalString

mutual
/-- A term with at least the characters of the given one. -/
def getMultisetApproximation : StringTerm → StringTerm
  | .substr s _ _ => getMultisetApproximation s
  | .replace s _ replacement =>
      .concat (.cons (getMultisetApproximation s) (.cons (getMultisetApproximation replacement) .nil))
  | .concat children => .concat (multisetApproximations children)
  | s => s

def multisetApproximations : StringTerms → StringTerms
  | .nil => .nil
  | .cons ac rest => .cons (getMultisetApproximation ac) (multisetApproximations rest)
end

/-- The constant components, each as often as it occurs. -/
def constants : List StringTerm → List Word
  | [] => []
  | .const w :: terms => w :: constants terms
  | _ :: terms => constants terms

/-- The components that are not constant. -/
def nonConstants (terms : List StringTerm) : List StringTerm := terms.filter (fun cc => !cc.isConst)

/-- How often a character occurs in the constants. The number is kept in an `unsigned`. -/
def countConst (terms : List StringTerm) (ch : Nat) : Nat :=
  (∑ cn ∈ (constants terms).toFinset, (constants terms).count cn * cn.count ch) % 2 ^ 32

def checkMultisetSubset (a b : StringTerm) : Bool :=
  let avec := getConcat (getMultisetApproximation a)
  let bvec := getConcat b
  let msSuccess := (nonConstants avec).all (fun c => (nonConstants avec).count c ≤ (nonConstants bvec).count c)
  let chars := (constants avec ++ constants bvec).flatten
  msSuccess && chars.any (fun ch => countConst avec ch < countConst bvec ch)

/-- Whether the components can be found in the constant from a position on, and the first and the last index of a
constant that was looked for.
-/
def canContainFrom (aent : ArithEntail) (c : Word) (i pos : Nat) (firstc lastc : Int)
    : List StringTerm → Bool × Int × Int
  | [] => (true, firstc, lastc)
  | .const t :: n =>
      let firstc : Int := if firstc = -1 then i else firstc
      match Word.find c t pos with
      | none => (false, firstc, i)
      | some newPos => canContainFrom aent c (i + 1) (newPos + t.length) firstc i n
  | .fromInt m :: n =>
      if aent.check m false then
        -- the first occurrence of a digit, at least one of which is consumed
        match (c.drop pos).findIdx? isDigit with
        | none => (false, firstc, lastc)
        | some digit => canContainFrom aent c (i + 1) (pos + digit + 1) firstc lastc n
      else canContainFrom aent c (i + 1) pos firstc lastc n
  | _ :: n => canContainFrom aent c (i + 1) pos firstc lastc n

def canConstantContainConcat (aent : ArithEntail) (c : Word) (n : List StringTerm) : Bool × Int × Int :=
  canContainFrom aent c 0 0 (-1) (-1) n

theorem find_of_occursAt {c t : Word} {pos q : Nat} (occurs : OccursAt t c q) (isLater : pos ≤ q)
    : ∃ newPos, Word.find c t pos = some newPos ∧ newPos ≤ q := by
  cases isFound : Word.find c t pos with
  | none => exact absurd occurs (Word.find_eq_none isFound isLater)
  | some newPos => exact ⟨newPos, rfl, (Word.find_eq_some isFound).2.2 q isLater occurs⟩

theorem findIdx_of_occursAt {c d : Word} {pos q : Nat} (occurs : OccursAt d c q) (isLater : pos ≤ q)
    (isNonEmpty : d ≠ []) (digits : ∀ character ∈ d, isDigit character = true)
    : ∃ digit, (c.drop pos).findIdx? isDigit = some digit ∧ pos + digit ≤ q := by
  obtain ⟨first, rest, rfl⟩ := List.exists_cons_of_ne_nil isNonEmpty
  obtain ⟨u, v, rfl, rfl⟩ := occurs
  rw [List.append_assoc, List.drop_append_of_le_length isLater, List.cons_append, List.findIdx?_append,
    List.findIdx?_cons, digits first List.mem_cons_self]
  cases isFound : (u.drop pos).findIdx? isDigit with
  | some digit =>
      refine ⟨digit, rfl, ?_⟩
      obtain ⟨inDrop, -⟩ := List.findIdx?_eq_some_iff_getElem.mp isFound
      rw [List.length_drop] at inDrop
      omega
  | none =>
      refine ⟨(u.drop pos).length, by simp, ?_⟩
      rw [List.length_drop]
      omega

/-- No choice is lost by taking the first position of each component. -/
theorem canContainFrom_of_occursAt {aent : ArithEntail} {A : Assignment} {c : Word} {n : List StringTerm}
    {i pos q : Nat} {firstc lastc : Int} (occurs : OccursAt (wordOf A n) c q) (isLater : pos ≤ q)
    : (canContainFrom aent c i pos firstc lastc n).1 = true := by
  induction n generalizing i pos q firstc lastc with
  | nil => rfl
  | cons component n ih =>
      rw [wordOf_cons] at occurs
      have rest := occurs.right
      have skipped : pos ≤ q + (component.eval A).length := le_trans isLater (Nat.le_add_right _ _)
      match component with
      | .const t =>
          rw [eval_const] at occurs rest
          obtain ⟨newPos, isFound, isFirst⟩ := find_of_occursAt occurs.left isLater
          simp only [canContainFrom, isFound]
          exact ih rest (Nat.add_le_add_right isFirst _)
      | .fromInt m =>
          rw [canContainFrom]
          split
          · rename_i checked
            rw [StringTerm.eval] at occurs rest
            have isNonEmpty := Word.fromInt_ne_nil (aent.nonneg_of_check A m false checked)
            obtain ⟨digit, isFound, isFirst⟩ :=
              findIdx_of_occursAt occurs.left isLater isNonEmpty fun _ member => Word.isDigit_of_mem_fromInt member
            have positive := List.length_pos_iff.mpr isNonEmpty
            simp only [isFound]
            exact ih rest (by omega)
          · exact ih rest skipped
      | .var _ | .concat _ | .unit _ | .substr _ _ _ | .replace _ _ _ => exact ih rest skipped

/-- How often a character occurs in the constants. -/
def occurrences (terms : List StringTerm) (ch : Nat) : Nat := ((constants terms).map (List.count ch)).sum

theorem countConst_eq (terms : List StringTerm) (ch : Nat) : countConst terms ch = occurrences terms ch % 2 ^ 32 := by
  rw [countConst, occurrences, Finset.sum_list_map_count]
  refine congrArg (· % 2 ^ 32) (Finset.sum_congr rfl fun cn _ => ?_)
  rw [Nat.nsmul_eq_mul]
  congr 2
  exact lawful_beq_subsingleton _ _

variable {A : Assignment}

theorem count_wordOf (terms : List StringTerm) (ch : Nat)
    : (wordOf A terms).count ch
      = occurrences terms ch + ((nonConstants terms).map (fun s => (s.eval A).count ch)).sum := by
  induction terms with
  | nil => rfl
  | cons s terms ih =>
      rw [wordOf_cons, List.count_append, ih]
      cases s with
      | const w =>
          rw [eval_const, occurrences, occurrences, constants, List.map_cons, List.sum_cons, Nat.add_assoc]
          rfl
      | _ =>
          rw [Nat.add_left_comm]
          rfl

theorem count_replace (w t replacement : Word) (ch : Nat)
    : (w.replace t replacement).count ch ≤ w.count ch + replacement.count ch := by
  rw [Word.replace]
  split
  · rename_i i _
    have kept := (List.drop_suffix_drop_left w (Nat.le_add_right i t.length)).sublist.count_le ch
    have whole := congrArg (List.count ch) (List.take_append_drop i w)
    rw [List.count_append] at whole
    simp only [List.count_append]
    omega
  · exact Nat.le_add_right _ _

mutual
theorem count_approximation (s : StringTerm) (ch : Nat)
    : (s.eval A).count ch ≤ ((getMultisetApproximation s).eval A).count ch := by
  match s with
  | .substr s start length =>
      rw [StringTerm.eval, getMultisetApproximation]
      exact le_trans ((Word.substr_isInfix _ _ _).sublist.count_le ch) (count_approximation s ch)
  | .replace s t replacement =>
      rw [StringTerm.eval, getMultisetApproximation, eval_concat]
      simp only [StringTerms.toList, wordOf_cons, wordOf_nil, List.append_nil, List.count_append]
      exact le_trans (count_replace _ _ _ ch)
        (Nat.add_le_add (count_approximation s ch) (count_approximation replacement ch))
  | .concat children =>
      rw [StringTerm.eval, getMultisetApproximation, StringTerm.eval]
      exact count_approximations children ch
  | .const _ | .var _ | .unit _ | .fromInt _ => exact le_refl _

theorem count_approximations (children : StringTerms) (ch : Nat)
    : (children.eval A).count ch ≤ ((multisetApproximations children).eval A).count ch := by
  match children with
  | .nil => exact le_refl _
  | .cons ac rest =>
      rw [multisetApproximations, StringTerms.eval, StringTerms.eval, List.count_append, List.count_append]
      exact Nat.add_le_add (count_approximation ac ch) (count_approximations rest ch)
end

/-- A word with more of some character is not contained, and is not equal. -/
theorem not_isInfix_of_count {w t : Word} (ch : Nat) (more : w.count ch < t.count ch) : ¬t <:+: w ∧ w ≠ t := by
  refine ⟨fun contained => ?_, fun same => ?_⟩
  · exact absurd (contained.sublist.count_le ch) (Nat.not_le_of_lt more)
  · rw [same] at more
    exact lt_irrefl _ more

/-- Components that also occur in another concatenation, as often, have no more of a character than those. -/
theorem sum_count_le {terms terms' : List StringTerm} (ch : Nat)
    (included : ∀ c ∈ terms, terms.count c ≤ terms'.count c)
    : (terms.map (fun s => (s.eval A).count ch)).sum ≤ (terms'.map (fun s => (s.eval A).count ch)).sum := by
  obtain ⟨same, isPerm, isSublist⟩ := List.subperm_ext_iff.mpr included
  rw [← (isPerm.map _).sum_eq]
  exact (isSublist.map _).sum_le_sum (fun _ _ => Nat.zero_le _)

/-- In `a` no count in the constants overflows, or some character occurs more often in `b` also as counted exactly. -/
def CountsExactly (a b : StringTerm) : Prop :=
  (∀ ch, occurrences (getConcat (getMultisetApproximation a)) ch < 2 ^ 32)
    ∨ ∃ ch, occurrences (getConcat (getMultisetApproximation a)) ch < occurrences (getConcat b) ch

/-- Where the counts do not overflow, the multisets tell that nothing is contained. -/
theorem not_contains_of_checkMultisetSubset {a b : StringTerm} (exactly : CountsExactly a b)
    (checked : checkMultisetSubset a b = true)
    : ¬b.eval A <:+: a.eval A ∧ a.eval A ≠ b.eval A := by
  rw [checkMultisetSubset, Bool.and_eq_true] at checked
  obtain ⟨included, counted⟩ := checked
  have included' : ∀ c ∈ nonConstants (getConcat (getMultisetApproximation a)),
      (nonConstants (getConcat (getMultisetApproximation a))).count c ≤ (nonConstants (getConcat b)).count c := by
    simpa using included
  have more : ∃ ch, occurrences (getConcat (getMultisetApproximation a)) ch < occurrences (getConcat b) ch := by
    rcases exactly with small | more
    · obtain ⟨ch, -, isLess⟩ := List.any_eq_true.mp counted
      rw [decide_eq_true_eq, countConst_eq, countConst_eq, Nat.mod_eq_of_lt (small ch)] at isLess
      exact ⟨ch, lt_of_lt_of_le isLess (Nat.mod_le _ _)⟩
    · exact more
  obtain ⟨ch, isLess⟩ := more
  refine not_isInfix_of_count ch (lt_of_le_of_lt (count_approximation a ch) ?_)
  rw [← wordOf_getConcat, ← wordOf_getConcat b, count_wordOf, count_wordOf]
  exact Nat.add_lt_add_of_lt_of_le isLess (sum_count_le ch included')

/-- Both tests tell that a word is not contained, the first one if its counts do not overflow. -/
theorem non_containment_sound (aent : ArithEntail)
    : (∀ a b, CountsExactly a b → checkMultisetSubset a b = true →
        ∀ A : Assignment, ¬b.eval A <:+: a.eval A ∧ a.eval A ≠ b.eval A)
      ∧ ∀ c n, (canConstantContainConcat aent c n).1 = false → ∀ A : Assignment, ¬wordOf A n <:+: c := by
  refine ⟨fun a b exactly checked A => not_contains_of_checkMultisetSubset exactly checked, ?_⟩
  intro c n notFound A contained
  obtain ⟨q, occurs⟩ := isInfix_iff.mp contained
  have isFound : (canContainFrom aent c 0 0 (-1) (-1) n).1 = true :=
    canContainFrom_of_occursAt occurs (Nat.zero_le q)
  exact Bool.false_ne_true (notFound.symm.trans isFound)

/-- `"aab" ++ x` is not contained in `str.substr("ab" ++ x, i, j)`, and `"b" ++ str.from_int(|x|)` not in `"1b"`. -/
theorem non_containment_sound_examples
    : let A : Assignment := ⟨fun _ => [97], fun _ => 0⟩
      let a : StringTerm := .substr (.concat (.ofList [.const [97, 98], .var 0])) (.var 0) (.var 1)
      let b : StringTerm := .concat (.ofList [.const [97, 97, 98], .var 0])
      (¬b.eval A <:+: a.eval A ∧ a.eval A ≠ b.eval A)
        ∧ ¬wordOf A [.const [98], .fromInt (.length (.var 0))] <:+: [49, 98] :=
  ⟨(non_containment_sound default).1 (.substr (.concat (.ofList [.const [97, 98], .var 0])) (.var 0) (.var 1))
      (.concat (.ofList [.const [97, 97, 98], .var 0])) (Or.inr ⟨97, by decide⟩) (by decide) ⟨fun _ => [97], fun _ => 0⟩,
    (non_containment_sound default).2 [49, 98] [.const [98], .fromInt (.length (.var 0))] (by decide)
      ⟨fun _ => [97], fun _ => 0⟩⟩

/-- A constant of `m` characters `"a"` and a variable, `n` times. -/
def repeatedConstant (n m : Nat) : StringTerm :=
  .concat (.ofList (List.replicate n [StringTerm.const (List.replicate m 97), .var 0]).flatten)

/-- The constant `"a"`, and a variable `n` times. -/
def onceConstant (n : Nat) : StringTerm := .concat (.ofList (.const [97] :: List.replicate n (.var 0)))

section Overflow

variable (n m : Nat)

theorem getMultisetApproximation_repeated : getMultisetApproximation (repeatedConstant n m) = repeatedConstant n m := by
  rw [repeatedConstant, getMultisetApproximation]
  congr 1
  induction n with
  | zero => rfl
  | succ n ih =>
      rw [List.replicate_succ, List.flatten_cons]
      simp only [List.cons_append, List.nil_append, StringTerms.ofList, multisetApproximations, ih,
        getMultisetApproximation]

theorem getConcat_repeated
    : getConcat (repeatedConstant n m) = (List.replicate n [StringTerm.const (List.replicate m 97), .var 0]).flatten :=
  StringTerms.toList_ofList _

theorem constants_repeated : constants (getConcat (repeatedConstant n m)) = List.replicate n (List.replicate m 97) := by
  rw [getConcat_repeated]
  induction n with
  | zero => rfl
  | succ n ih =>
      rw [List.replicate_succ, List.flatten_cons, List.replicate_succ, ← ih]
      rfl

theorem nonConstants_repeated : nonConstants (getConcat (repeatedConstant n m)) = List.replicate n (.var 0) := by
  rw [getConcat_repeated]
  induction n with
  | zero => rfl
  | succ n ih =>
      rw [List.replicate_succ, List.flatten_cons, List.replicate_succ, ← ih]
      rfl

theorem constants_variables : constants (List.replicate n (.var 0)) = [] := by
  induction n with
  | zero => rfl
  | succ n ih => exact ih

theorem nonConstants_variables : nonConstants (List.replicate n (.var 0)) = List.replicate n (.var 0) :=
  List.filter_replicate_of_pos rfl

theorem getConcat_once : getConcat (onceConstant n) = .const [97] :: List.replicate n (.var 0) :=
  StringTerms.toList_ofList _

/-- A count that overflows to zero is less than one. -/
theorem checkMultisetSubset_overflow (overflow : n * m % 2 ^ 32 = 0)
    : checkMultisetSubset (repeatedConstant n m) (onceConstant n) = true := by
  have ofA : countConst (getConcat (repeatedConstant n m)) 97 = 0 := by
    rw [countConst_eq, occurrences, constants_repeated, List.map_replicate, List.sum_replicate,
      List.count_replicate_self, Nat.nsmul_eq_mul, overflow]
  have ofB : countConst (getConcat (onceConstant n)) 97 = 1 := by
    rw [countConst_eq, occurrences, getConcat_once, constants, constants_variables]
    rfl
  have included : nonConstants (getConcat (onceConstant n)) = nonConstants (getConcat (repeatedConstant n m)) := by
    rw [nonConstants_repeated, getConcat_once]
    exact nonConstants_variables n
  rw [checkMultisetSubset, getMultisetApproximation_repeated, included, Bool.and_eq_true]
  refine ⟨by simp, List.any_eq_true.mpr ⟨97, ?_, by rw [ofA, ofB]; rfl⟩⟩
  rw [getConcat_once, constants]
  simp

/-- Without characters for the variable, the single character is the first one of the constants. -/
theorem once_isInfix_repeated {A : Assignment} (isEmpty : A.string 0 = []) (positiveN : 0 < n) (positiveM : 0 < m)
    : (onceConstant n).eval A <:+: (repeatedConstant n m).eval A := by
  obtain ⟨n, rfl⟩ := Nat.exists_eq_succ_of_ne_zero (Nat.pos_iff_ne_zero.mp positiveN)
  obtain ⟨m, rfl⟩ := Nat.exists_eq_succ_of_ne_zero (Nat.pos_iff_ne_zero.mp positiveM)
  have ofVariables : ∀ k, wordOf A (List.replicate k (.var 0)) = [] := by
    intro k
    induction k with
    | zero => rfl
    | succ k ih => rw [List.replicate_succ, wordOf_cons, ih, StringTerm.eval, isEmpty, List.append_nil]
  have ofOnce : (onceConstant (n + 1)).eval A = [97] := by
    rw [← wordOf_getConcat, getConcat_once, wordOf_cons, ofVariables, eval_const, List.append_nil]
  rw [ofOnce, ← wordOf_getConcat, getConcat_repeated, List.replicate_succ, List.flatten_cons, List.cons_append,
    wordOf_cons, eval_const, List.replicate_succ, List.cons_append]
  exact (List.prefix_append [97] _).isInfix

end Overflow

/-- With 65536 constants of 65536 characters each the test succeeds, although the word is contained. -/
theorem multiset_count_overflow
    : let A : Assignment := ⟨fun _ => [], fun _ => 0⟩
      checkMultisetSubset (repeatedConstant 65536 65536) (onceConstant 65536) = true
        ∧ (onceConstant 65536).eval A <:+: (repeatedConstant 65536 65536).eval A := by
  intro A
  exact ⟨checkMultisetSubset_overflow 65536 65536 rfl, once_isInfix_repeated 65536 65536 rfl (by decide) (by decide)⟩

end Ava6.Strings
