import Ava6.Strings.ArithApprox
import Ava6.Strings.ArithEntail
import Ava6.Strings.LengthIntro

/-! Entailment of bounds by approximation: the monomials of a sum are replaced by bounds from below, and what is left is
checked, possibly by approximating again. There is no rewriter, so that terms are rewritten to polynomials. What is
computed is cached, which makes no difference and is left out; fuel bounds the approximations of approximations.
-/

namespace Ava6.Strings.ArithApprox

open PolyNorm Ava6.Library.MonomialSum

mutual
def checkSimple : IntTerm → Bool
  | .const n => decide (0 ≤ n)
  | .length _ => true
  | .add children | .mult children => checkSimples children
  | .var _ | .nonlinearMult _ | .sub _ _ | .indexof _ _ _ | .toInt _ => false

def checkSimples : IntTerms → Bool
  | .nil => true
  | .cons a rest => checkSimple a && checkSimples rest
end

variable (id : IntTerm → Nat)

/-- The loop over `toProcess`, whose back comes first. -/
def approximateFrom (check : IntTerm → Bool → Bool) (isOverApprox isSimple : Bool)
    : Nat → List IntTerm → List IntTerm → List IntTerm → Option (List IntTerm)
  | _, _, [], approx => some approx
  | 0, _, _ :: _, _ => none
  | fuel + 1, visited, next :: toProcess, approx =>
      let curr := getPolyNorm id next
      if curr ∈ visited then approximateFrom check isOverApprox isSimple fuel visited toProcess approx
      else
        match getArithApproximations check isOverApprox curr with
        | [] => approximateFrom check isOverApprox isSimple fuel (curr :: visited) toProcess (approx ++ [curr])
        | currApprox =>
            -- A simple approximation is not approximated again.
            if isSimple then approximateFrom check isOverApprox isSimple fuel (curr :: visited) toProcess currApprox
            else
              approximateFrom check isOverApprox isSimple fuel (curr :: visited) (currApprox.reverse ++ toProcess) approx

/-- A monomial with a choice of approximations. -/
structure Choice where
  v : IntTerm
  c : Option Int
  approx : List IntTerm

/-- `aarSum`, `approxMap` and `mApprox` after the first loop. -/
structure Setup where
  aarSum : List IntTerm
  approxMap : List (IntTerm × IntTerm)
  mApprox : List Choice
  changed : Bool

/-- A negative coefficient makes a bound from below of one from above. -/
def isOver (c : Option Int) : Bool := decide (c.getD 1 < 0)

def Setup.addMonomial (v : IntTerm) (c : Option Int) (approx : List IntTerm) (setup : Setup) : Setup :=
  match approx with
  | [single] =>
      { setup with
        aarSum := mkCoeffTerm c single :: setup.aarSum
        approxMap := if v = single then setup.approxMap else (v, single) :: setup.approxMap
        changed := decide (v ≠ single) || setup.changed }
  | approx => { setup with mApprox := ⟨v, c, approx⟩ :: setup.mApprox, changed := true }

def approximateMonomials (check : IntTerm → Bool → Bool) (isSimple : Bool) (fuel : Nat) : MonomialSum → Option Setup
  | [] => some ⟨[], [], [], false⟩
  | (none, c) :: rest => do
      let setup ← approximateMonomials check isSimple fuel rest
      some { setup with aarSum := .const (c.getD 1) :: setup.aarSum }
  | (some v, c) :: rest => do
      let approx ← approximateFrom id check (isOver c) isSimple fuel [] [v] []
      let setup ← approximateMonomials check isSimple fuel rest
      some (setup.addMonomial v c approx)

/-- `helpsCancelCount` and `addsObligationCount` of the monomial `aam` of an approximation with coefficient `cr`. -/
def countsOf (msumAar : MonomialSum) (cr : Option Int) (aam : Option IntTerm × Option Int) : Nat × Nat :=
  let ci := cr.getD 1 * aam.2.getD 1
  match msumAar.lookup aam.1 with
  | some c =>
      if (c.getD 1).sign = 0 then (0, if ci.sign = -1 then 1 else 0)
      else if (c.getD 1).sign ≠ ci.sign then (1, if (c.getD 1 + ci).sign = -1 then 1 else 0)
      else (0, 0)
  | none => (0, if ci.sign = -1 then 1 else 0)

def score (msumAar : MonomialSum) (cr : Option Int) (aa : IntTerm) : Nat :=
  let counts := ((getMonomialSum id (getPolyNorm id aa)).getD []).map (countsOf msumAar cr)
  (if 0 < (counts.map Prod.snd).sum then 0 else 2) + (if 0 < (counts.map Prod.fst).sum then 1 else 0)

/-- The first approximation with the highest score. -/
def bestApprox (score : IntTerm → Nat) : List IntTerm → Option IntTerm
  | [] => none
  | aa :: rest => some (rest.foldl (fun best next => if score best < score next then next else best) aa)

/-- The monomials are incorporated one at a time, in the order of `mApprox`. -/
def decideFrom : List Choice → IntTerm → MonomialSum → List (IntTerm × IntTerm)
    → Option (IntTerm × List (IntTerm × IntTerm))
  | [], aar, _, approxMap => some (aar, approxMap)
  | m :: mApprox, aar, msumAar, approxMap => do
      let vapprox ← bestApprox (score id msumAar m.c) m.approx
      let aar := getPolyNorm id (.add (.ofList [aar, mkCoeffTerm m.c vapprox]))
      let msumAar ← getMonomialSum id aar
      decideFrom mApprox aar msumAar (approxMap ++ [(m.v, vapprox)])

/-- The fixed sum with every choice made. -/
def decideChoices (setup : Setup) : Option (IntTerm × List (IntTerm × IntTerm)) :=
  let aar := getPolyNorm id (sumNode setup.aarSum)
  if setup.mApprox.isEmpty then some (aar, setup.approxMap)
  else do
    let msumAar ← getMonomialSum id aar
    decideFrom id setup.mApprox aar msumAar setup.approxMap

mutual
/-- Substitutes in the arithmetic skeleton: terms of the theory of strings are not traversed. -/
def applyArith (subs : List (IntTerm × IntTerm)) (a : IntTerm) : IntTerm :=
  match subs.lookup a with
  | some s => s
  | none =>
      match a with
      | .add children => .add (applyAriths subs children)
      | .mult children => .mult (applyAriths subs children)
      | .nonlinearMult children => .nonlinearMult (applyAriths subs children)
      | .sub b c => .sub (applyArith subs b) (applyArith subs c)
      | .const _ | .var _ | .length _ | .indexof _ _ _ | .toInt _ => a

def applyAriths (subs : List (IntTerm × IntTerm)) : IntTerms → IntTerms
  | .nil => .nil
  | .cons a rest => .cons (applyArith subs a) (applyAriths subs rest)
end

mutual
/-- Whether `t` is a subterm in the arithmetic skeleton. -/
def hasArithSubterm (t : IntTerm) (a : IntTerm) : Bool :=
  decide (a = t)
    || match a with
      | .add children | .mult children | .nonlinearMult children => hasArithSubterms t children
      | .sub b c => hasArithSubterm t b || hasArithSubterm t c
      | .const _ | .var _ | .length _ | .indexof _ _ _ | .toInt _ => false

def hasArithSubterms (t : IntTerm) : IntTerms → Bool
  | .nil => false
  | .cons a rest => hasArithSubterm t a || hasArithSubterms t rest
end

variable (recApprox : Bool)

def findApproxInternal (check : IntTerm → Bool → Bool → Bool) (fuel : Nat) (ar : IntTerm) (isSimple : Bool)
    : Option IntTerm := do
  -- Without recursive approximations they are always simple.
  let isSimple := isSimple || !recApprox
  let msum ← getMonomialSum id ar
  let setup ← approximateMonomials id (check · · isSimple) isSimple fuel msum
  if !setup.changed then none
  else
    let (aar, approxMap) ← decideChoices id setup
    if aar = ar then none
    else if check aar false isSimple then some (applyArith approxMap ar)
    else none

def findApproxWith (check : IntTerm → Bool → Bool → Bool) (fuel : Nat) (ar : IntTerm) (isSimple : Bool)
    : Option IntTerm :=
  if checkSimple ar then some ar else findApproxInternal id recApprox check fuel ar isSimple

def rewriteArith (a : IntTerm) : IntTerm := getPolyNorm id (rewriteLengthIntro a)

/-- Whether the term is entailed to be at least zero, or greater if `strict`. -/
def check : Nat → IntTerm → Bool → Bool → Bool
  | 0, _, _, _ => false
  | fuel + 1, a, strict, isSimple =>
      match a with
      | .const n => decide ((if strict then 1 else 0) ≤ n.sign)
      | _ =>
          let ar := if strict then .sub a (.const 1) else a
          if isSimple then checkSimple (getPolyNorm id ar)
          else (findApproxWith id recApprox (check fuel) fuel (rewriteArith id ar) isSimple).isSome

def findApprox (fuel : Nat) (ar : IntTerm) (isSimple : Bool) : Option IntTerm :=
  findApproxWith id recApprox (check id recApprox fuel) fuel ar isSimple

variable {A : Assignment}

mutual
theorem nonneg_of_checkSimple (A : Assignment) {a : IntTerm} (checked : checkSimple a = true) : 0 ≤ a.eval A := by
  match a with
  | .const n =>
      rw [IntTerm.eval]
      exact of_decide_eq_true checked
  | .length s =>
      rw [IntTerm.eval]
      exact Int.natCast_nonneg _
  | .add children =>
      rw [IntTerm.eval]
      exact (nonneg_of_checkSimples A (by rwa [checkSimple] at checked)).1
  | .mult children =>
      rw [IntTerm.eval]
      exact (nonneg_of_checkSimples A (by rwa [checkSimple] at checked)).2
  | .var _ | .nonlinearMult _ | .sub _ _ | .indexof _ _ _ | .toInt _ => cases checked

theorem nonneg_of_checkSimples (A : Assignment) {children : IntTerms} (checked : checkSimples children = true)
    : 0 ≤ children.sum A ∧ 0 ≤ children.product A := by
  match children with
  | .nil => exact ⟨le_refl 0, Int.one_nonneg⟩
  | .cons a rest =>
      rw [checkSimples, Bool.and_eq_true] at checked
      have first := nonneg_of_checkSimple A checked.1
      have ⟨restSum, restProduct⟩ := nonneg_of_checkSimples A checked.2
      rw [IntTerms.sum, IntTerms.product]
      exact ⟨add_nonneg first restSum, mul_nonneg first restProduct⟩
end

theorem Bounds.refl (isOverApprox : Bool) (x : Int) : Bounds isOverApprox x x := by
  cases isOverApprox
  · exact le_refl x
  · exact le_refl x

theorem Bounds.trans {isOverApprox : Bool} {x y z : Int} (first : Bounds isOverApprox x y)
    (second : Bounds isOverApprox y z) : Bounds isOverApprox x z := by
  cases isOverApprox
  · exact le_trans second first
  · exact le_trans first second

/-- With its coefficient a bound is one from below. -/
theorem Bounds.scaled {c : Option Int} {x y : Int} (bounds : Bounds (isOver c) x y) : c.getD 1 * y ≤ c.getD 1 * x := by
  by_cases isNegative : c.getD 1 < 0
  · rw [isOver, decide_eq_true isNegative] at bounds
    exact mul_le_mul_of_nonpos_left bounds (le_of_lt isNegative)
  · rw [isOver, decide_eq_false isNegative] at bounds
    exact mul_le_mul_of_nonneg_left bounds (not_lt.mp isNegative)

variable {id recApprox} {check : IntTerm → Bool → Bool} {isSimple : Bool} {fuel : Nat}

/-- Approximations of bounds are bounds. -/
theorem approximateFrom_bounds (sound : IsSound check) {isOverApprox : Bool}
    {visited toProcess approx result : List IntTerm} {x : Int}
    (found : approximateFrom id check isOverApprox isSimple fuel visited toProcess approx = some result)
    (pending : ∀ t ∈ toProcess, Bounds isOverApprox x (t.eval A))
    (finished : ∀ t ∈ approx, Bounds isOverApprox x (t.eval A))
    : ∀ t ∈ result, Bounds isOverApprox x (t.eval A) := by
  fun_induction approximateFrom id check isOverApprox isSimple fuel visited toProcess approx with
  | case1 =>
      cases found
      exact finished
  | case2 => cases found
  | case3 fuel visited next toProcess approx curr isVisited ih =>
      exact ih found (fun t member => pending t (List.mem_cons_of_mem _ member)) finished
  | case4 fuel visited next toProcess approx curr notVisited isLast ih =>
      refine ih found (fun t member => pending t (List.mem_cons_of_mem _ member)) (fun t member => ?_)
      rcases List.mem_append.mp member with member | isCurr
      · exact finished t member
      · rw [List.mem_singleton.mp isCurr, eval_getPolyNorm]
        exact pending next List.mem_cons_self
  | case5 fuel visited next toProcess approx curr notVisited isSimple notLast ih =>
      refine ih found (fun t member => pending t (List.mem_cons_of_mem _ member)) (fun t member => ?_)
      have bounds := getArithApproximations_bounds (A := A) sound member
      rw [eval_getPolyNorm] at bounds
      exact (pending next List.mem_cons_self).trans bounds
  | case6 fuel visited next toProcess approx curr notVisited notSimple notLast ih =>
      refine ih found (fun t member => ?_) finished
      rcases List.mem_append.mp member with member | isLater
      · have bounds := getArithApproximations_bounds (A := A) sound (List.mem_reverse.mp member)
        rw [eval_getPolyNorm] at bounds
        exact (pending next List.mem_cons_self).trans bounds
      · exact pending t (List.mem_cons_of_mem _ isLater)

def Choice.value (A : Assignment) (m : Choice) : Int := m.c.getD 1 * m.v.eval A

def Choice.IsBounded (A : Assignment) (m : Choice) : Prop := ∀ t ∈ m.approx, Bounds (isOver m.c) (m.v.eval A) (t.eval A)

/-- The value of what is fixed, with the exact values of the other monomials. -/
def Setup.value (A : Assignment) (setup : Setup) : Int :=
  (setup.aarSum.map (IntTerm.eval A)).sum + (setup.mApprox.map (Choice.value A)).sum

theorem Setup.value_addMonomial {v : IntTerm} {c : Option Int} {approx : List IntTerm} {setup : Setup}
    (bounds : ∀ t ∈ approx, Bounds (isOver c) (v.eval A) (t.eval A))
    (bounded : ∀ m ∈ setup.mApprox, m.IsBounded A)
    : (setup.addMonomial v c approx).value A ≤ c.getD 1 * v.eval A + setup.value A
      ∧ ∀ m ∈ (setup.addMonomial v c approx).mApprox, m.IsBounded A := by
  unfold Setup.addMonomial
  split
  · next single =>
      have scaled := (bounds single List.mem_cons_self).scaled
      refine ⟨?_, bounded⟩
      simp only [Setup.value, List.map_cons, List.sum_cons, eval_mkCoeffTerm]
      omega
  · refine ⟨?_, ?_⟩
    · simp only [Setup.value, List.map_cons, List.sum_cons, Choice.value]
      omega
    · intro m member
      rcases List.mem_cons.mp member with rfl | member
      · exact bounds
      · exact bounded m member

theorem approximateMonomials_value (sound : IsSound check) {msum : MonomialSum} {setup : Setup}
    (found : approximateMonomials id check isSimple fuel msum = some setup)
    : setup.value A ≤ sumValue (IntTerm.eval A) msum ∧ ∀ m ∈ setup.mApprox, m.IsBounded A := by
  induction msum generalizing setup with
  | nil =>
      cases found
      exact ⟨le_refl _, fun m member => absurd member List.not_mem_nil⟩
  | cons monomial rest ih =>
      obtain ⟨v | v, c⟩ := monomial
      · rw [approximateMonomials] at found
        obtain ⟨setup', found', isSetup⟩ := Option.bind_eq_some_iff.mp found
        cases isSetup
        obtain ⟨isLess, bounded⟩ := ih found'
        refine ⟨?_, bounded⟩
        simp only [Setup.value, sumValue, List.map_cons, List.sum_cons, IntTerm.eval, monomialValue, Option.map_none,
          Option.getD_none] at isLess ⊢
        omega
      · rw [approximateMonomials] at found
        obtain ⟨approx, foundApprox, found⟩ := Option.bind_eq_some_iff.mp found
        obtain ⟨setup', found', isSetup⟩ := Option.bind_eq_some_iff.mp found
        cases isSetup
        obtain ⟨isLess, bounded⟩ := ih found'
        have bounds : ∀ t ∈ approx, Bounds (isOver c) (v.eval A) (t.eval A) := by
          refine approximateFrom_bounds sound foundApprox (fun t member => ?_) (fun t member => by cases member)
          rw [List.mem_singleton.mp member]
          exact Bounds.refl _ _
        obtain ⟨isLess', bounded'⟩ := Setup.value_addMonomial bounds bounded
        refine ⟨?_, bounded'⟩
        simp only [sumValue, List.map_cons, List.sum_cons, monomialValue, Option.map_some, Option.getD_some] at isLess ⊢
        omega

theorem bestApprox_mem {score : IntTerm → Nat} {approx : List IntTerm} {best : IntTerm}
    (found : bestApprox score approx = some best) : best ∈ approx := by
  cases approx with
  | nil => cases found
  | cons aa rest =>
      obtain rfl := Option.some.inj found
      induction rest generalizing aa with
      | nil => exact List.mem_cons_self
      | cons next rest ih =>
          rw [List.foldl_cons]
          split
          · exact List.mem_cons_of_mem _ (ih next rfl)
          · rcases List.mem_cons.mp (ih aa rfl) with same | member
            · rw [same]
              exact List.mem_cons_self
            · exact List.mem_cons_of_mem _ (List.mem_cons_of_mem _ member)

theorem decideFrom_le {mApprox : List Choice} {aar aar' : IntTerm} {msumAar : MonomialSum}
    {approxMap approxMap' : List (IntTerm × IntTerm)} (bounded : ∀ m ∈ mApprox, m.IsBounded A)
    (found : decideFrom id mApprox aar msumAar approxMap = some (aar', approxMap'))
    : aar'.eval A ≤ aar.eval A + (mApprox.map (Choice.value A)).sum := by
  induction mApprox generalizing aar msumAar approxMap with
  | nil =>
      cases found
      rw [List.map_nil, List.sum_nil, add_zero]
  | cons m mApprox ih =>
      rw [decideFrom] at found
      obtain ⟨vapprox, isBest, found⟩ := Option.bind_eq_some_iff.mp found
      obtain ⟨msumAar', -, found⟩ := Option.bind_eq_some_iff.mp found
      have isLess := ih (fun m member => bounded m (List.mem_cons_of_mem _ member)) found
      have scaled := (bounded m List.mem_cons_self vapprox (bestApprox_mem isBest)).scaled
      rw [eval_getPolyNorm, eval_add_two, eval_mkCoeffTerm] at isLess
      rw [List.map_cons, List.sum_cons, Choice.value]
      omega

/-- The fixed sum after every choice, and the approximations that were made. -/
structure Approximation (id : IntTerm → Nat) (check : IntTerm → Bool → Bool) (isSimple : Bool) (fuel : Nat) (ar : IntTerm)
    where
  msum : MonomialSum
  setup : Setup
  aar : IntTerm
  approxMap : List (IntTerm × IntTerm)
  isSum : getMonomialSum id ar = some msum
  isSetup : approximateMonomials id check isSimple fuel msum = some setup
  isDecided : ∃ msumAar, decideFrom id setup.mApprox (getPolyNorm id (sumNode setup.aarSum)) msumAar setup.approxMap
    = some (aar, approxMap)
  isChecked : check aar false = true

theorem findApproxInternal_cases {check : IntTerm → Bool → Bool → Bool} {ar r : IntTerm}
    (found : findApproxInternal id recApprox check fuel ar isSimple = some r)
    : ∃ made : Approximation id (check · · (isSimple || !recApprox)) (isSimple || !recApprox) fuel ar,
        r = applyArith made.approxMap ar := by
  rw [findApproxInternal] at found
  obtain ⟨msum, isSum, found⟩ := Option.bind_eq_some_iff.mp found
  obtain ⟨setup, isSetup, found⟩ := Option.bind_eq_some_iff.mp found
  split at found
  · cases found
  · obtain ⟨⟨aar, approxMap⟩, decided, found⟩ := Option.bind_eq_some_iff.mp found
    have isDecided : ∃ msumAar,
        decideFrom id setup.mApprox (getPolyNorm id (sumNode setup.aarSum)) msumAar setup.approxMap
          = some (aar, approxMap) := by
      rw [decideChoices] at decided
      split at decided
      · next isEmpty =>
          refine ⟨[], ?_⟩
          rw [List.isEmpty_iff.mp isEmpty, decideFrom, ← decided]
      · obtain ⟨msumAar, -, decided⟩ := Option.bind_eq_some_iff.mp decided
        exact ⟨msumAar, decided⟩
    simp only at found
    split at found
    · cases found
    · split at found
      · next isChecked =>
          exact ⟨⟨msum, setup, aar, approxMap, isSum, isSetup, isDecided, isChecked⟩, (Option.some.inj found).symm⟩
      · cases found

/-- The fixed sum is a bound from below. -/
theorem Approximation.aar_le (sound : IsSound check) {ar : IntTerm} (made : Approximation id check isSimple fuel ar)
    : made.aar.eval A ≤ ar.eval A := by
  obtain ⟨isLess, bounded⟩ := approximateMonomials_value (A := A) sound made.isSetup
  obtain ⟨msumAar, decided⟩ := made.isDecided
  have decidedLess := decideFrom_le bounded decided
  rw [eval_getPolyNorm, eval_sumNode] at decidedLess
  rw [sum_getMonomialSum made.isSum] at isLess
  exact le_trans decidedLess isLess

theorem nonneg_of_findApproxWith {check : IntTerm → Bool → Bool → Bool}
    (sound : ∀ isSimple, IsSound (check · · isSimple)) {ar r : IntTerm}
    (found : findApproxWith id recApprox check fuel ar isSimple = some r) (A : Assignment) : 0 ≤ ar.eval A := by
  rw [findApproxWith] at found
  split at found
  · next checked => exact nonneg_of_checkSimple A checked
  · obtain ⟨made, -⟩ := findApproxInternal_cases found
    exact le_trans (sound _ _ _ made.isChecked A).1 (made.aar_le (sound _))

theorem eval_rewriteArith (a : IntTerm) : (rewriteArith id a).eval A = a.eval A := by
  rw [rewriteArith, eval_getPolyNorm, eval_rewriteLengthIntro]

/-- By induction on the fuel: approximations are checked with less of it. -/
theorem check_isSound (fuel : Nat) (isSimple : Bool) : IsSound (ArithApprox.check id recApprox fuel · · isSimple) := by
  induction fuel generalizing isSimple with
  | zero =>
      intro a strict checked
      cases checked
  | succ fuel ih =>
      intro a strict checked A
      have ofShifted {ar : IntTerm} (isShifted : ar = if strict then .sub a (.const 1) else a) (isNonNeg : 0 ≤ ar.eval A)
          : 0 ≤ a.eval A ∧ (strict = true → 0 < a.eval A) := by
        rw [isShifted] at isNonNeg
        cases strict with
        | false => exact ⟨isNonNeg, fun isStrict => absurd isStrict Bool.false_ne_true⟩
        | true =>
            rw [if_pos rfl, IntTerm.eval, IntTerm.eval] at isNonNeg
            exact ⟨by omega, fun _ => by omega⟩
      change ArithApprox.check id recApprox (fuel + 1) a strict isSimple = true at checked
      unfold ArithApprox.check at checked
      split at checked
      · next n =>
          rw [decide_eq_true_eq] at checked
          rw [IntTerm.eval]
          cases strict with
          | false => exact ⟨Int.sign_nonneg_iff.mp checked, fun isStrict => absurd isStrict Bool.false_ne_true⟩
          | true =>
              have isPositive := Int.sign_pos_iff.mp checked
              exact ⟨le_of_lt isPositive, fun _ => isPositive⟩
      · simp only at checked
        cases isSimple with
        | true => exact ofShifted rfl ((eval_getPolyNorm _).symm ▸ nonneg_of_checkSimple A checked)
        | false =>
            obtain ⟨r, found⟩ := Option.isSome_iff_exists.mp checked
            exact ofShifted rfl ((eval_rewriteArith _).symm ▸ nonneg_of_findApproxWith ih found A)

/-- Entailment without a rewriter is one that the rewrites of strings can be given. -/
def polyNormEntail (id : IntTerm → Nat) (recApprox : Bool) (fuel : Nat) : ArithEntail where
  rewriteArith := rewriteArith id
  check a strict := ArithApprox.check id recApprox fuel a strict false
  eval_rewriteArith _ a := eval_rewriteArith a
  nonneg_of_check A a strict checked := (check_isSound fuel false a strict checked A).1
  pos_of_check A a checked := (check_isSound fuel false a true checked A).2 rfl

end Ava6.Strings.ArithApprox
