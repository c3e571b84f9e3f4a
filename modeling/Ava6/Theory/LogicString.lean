import Ava6.Theory.LogicInfo

/-! The names of logics: how a logic is read from its name, how a name is made for a logic, and the calls that change a
logic. A name is a list of characters; where it is read as a C string it ends at the first null character.
-/

namespace Ava6.Theory

namespace LogicInfo

inductive Token
  | theory (id : TheoryId)
  | unsupported
  | arithmetic (integers reals linear differenceLogic : Bool)

/-- The names of theories in a logic name, in the order in which they are tried. -/
def tokens : List (String × Token) := [
  ("A", .theory .arrays),
  ("UF", .theory .uf),
  ("BV", .theory .bv),
  ("FF", .unsupported),
  ("FP", .unsupported),
  ("DT", .theory .datatypes),
  ("S", .theory .strings),
  ("IDL", .arithmetic true false true true),
  ("RDL", .arithmetic false true true true),
  ("IRDL", .arithmetic true true true true),
  ("LIA", .arithmetic true false true false),
  ("LRA", .arithmetic false true true false),
  ("LIRA", .arithmetic true true true false),
  ("NIA", .arithmetic true false false false),
  ("NRA", .arithmetic false true false false),
  ("NIRA", .arithmetic true true false false),
  ("FS", .theory .sets)]

/-- `strncmp` with the length of the first string. -/
def startsWith (name : String) (p : List Char) : Bool := name.toList.isPrefixOf p

def findToken (p : List Char) : Option (String × Token) := tokens.find? fun entry => startsWith entry.1 p

def unsupportedError : String := "This theory is not supported by the core solver"

def duplicateError (id : String) : String := "duplicate theory: " ++ id

def twoArithmeticError (th1 th2 : String) : String :=
  "a logic name can only contain one arithmetic theory but found two: " ++ th1 ++ " and " ++ th2

/-- The arithmetic theory that is read is the empty string where there was none. -/
structure ParseState where
  info : LogicInfo
  arithmeticTheory : String
  p : List Char

/-- The changes for an arithmetic theory. -/
def withArithmeticTheory (integers reals linear differenceLogic : Bool) (info : LogicInfo) : LogicInfo :=
  let info := if integers then info.withIntegers else info.withoutIntegers
  let info := if reals then info.withReals else info.withoutReals
  info.withArithmetic linear differenceLogic

def Token.apply (name : String) (st : ParseState) : Token → Except String ParseState
  | .theory id =>
      if st.info.theories id then .error (duplicateError name)
      else .ok { st with info := st.info.withTheory id, p := st.p.drop name.length }
  | .unsupported => .error unsupportedError
  | .arithmetic integers reals linear differenceLogic =>
      if st.arithmeticTheory ≠ "" then .error (twoArithmeticError st.arithmeticTheory name)
      else .ok ⟨st.info.withArithmeticTheory integers reals linear differenceLogic, name, st.p.drop name.length⟩

/-- The loop over the theories of a name; it ends where none is recognized. -/
def parseTheories : Nat → ParseState → Except String ParseState
  | 0, st => .ok st
  | fuel + 1, st =>
      match findToken st.p with
      | none => .ok st
      | some (name, token) =>
          match token.apply name st with
          | .error msg => .error msg
          | .ok st => parseTheories fuel st

def junkError (logicString p : List Char) : String :=
  "LogicInfo::setLogicString(): "
    ++ if p = logicString then "cannot parse logic string: " ++ String.ofList logicString
      else "junk (\"" ++ String.ofList p ++ "\") at end of logic string: " ++ String.ofList logicString

/-- A name that is not one of a fixed logic; the logic, and what is left of the name. -/
def parseName (info : LogicInfo) (p : List Char) : Except String (LogicInfo × List Char) :=
  let (info, p) :=
    if startsWith "QF_" p then (info.withoutTheory .quantifiers, p.drop 3)
    else (info.withTheory .quantifiers, p)
  if startsWith "SEP_" p then .error unsupportedError
  else if startsWith "AX" p then .ok (info.withTheory .arrays, p.drop 2)
  else
    match parseTheories p.length ⟨info, "", p⟩ with
    | .error msg => .error msg
    | .ok st => .ok (st.info, st.p)

def higherOrderError : String := "Higher-order logics are not supported"

/-- The branches over a name that starts at `p`. -/
def parseLogic (info : LogicInfo) (p : List Char) : Except String (LogicInfo × List Char) :=
  if startsWith "HO_" p then .error higherOrderError
  else if p = [] then .ok (info, [])
  else if p = "QF_SAT".toList then .ok (info, [])
  else if p = "SAT".toList then .ok (info.withTheory .quantifiers, [])
  else if p = "QF_ALL".toList then .ok ((general.withoutTheory .quantifiers).withArithmetic false false, [])
  else if p = "ALL".toList then .ok ((general.withTheory .quantifiers).withArithmetic false false, [])
  else if p = "HORN".toList then .ok ((general.withTheory .quantifiers).withArithmetic false false, [])
  else parseName info p

/-- `c_str`, as far as the null character. -/
def cString (logicString : List Char) : List Char := logicString.takeWhile (· ≠ Char.ofNat 0)

def setLogicString (logicString : List Char) (info : LogicInfo) : Except String LogicInfo :=
  if info.locked then .error isLockedError
  else
    let info := { info with theories := fun _ => false, sharingTheories := 0 }
    match parseLogic ((info.withTheory .builtin).withTheory .bool) (cString logicString) with
    | .error msg => .error msg
    | .ok (info, p) =>
        if p ≠ [] then .error (junkError logicString p) else .ok { info with logicString := logicString }

/-- The constructor from a name. -/
def ofString (logicString : List Char) : Except String LogicInfo :=
  match setLogicString logicString (blank false false) with
  | .error msg => .error msg
  | .ok info => .ok info.lock

/-- The logic is locked afterwards. -/
def disableEverything (info : LogicInfo) : Except String LogicInfo :=
  if info.locked then .error isLockedError else ofString []

def hasEverything (info : LogicInfo) : Except String Bool :=
  if info.locked then info.eq general.lock else .error notLockedError

def qfAllSupported : LogicInfo := (general.withoutTheory .quantifiers).lock

def printIf (b : Bool) (name : String) : List Char := if b then name.toList else []

/-- The name of arithmetic. -/
def arithString (info : LogicInfo) : List Char :=
  if info.differenceLogic then printIf info.integers "I" ++ (printIf info.reals "R" ++ "DL".toList)
  else
    (if info.linear || info.differenceLogic then "L".toList else "N".toList)
      ++ (printIf info.integers "I" ++ (printIf info.reals "R" ++ "A".toList))

/-- The names of the theories. -/
def theoriesString (info : LogicInfo) : List Char :=
  printIf (info.theories .arrays) (if info.sharingTheories = 1 then "AX" else "A")
    ++ (printIf (info.theories .uf) "UF" ++ (printIf (info.theories .bv) "BV" ++ (printIf (info.theories .datatypes) "DT"
      ++ (printIf (info.theories .strings) "S" ++ ((if info.theories .arith then info.arithString else [])
        ++ printIf (info.theories .sets) "FS")))))

/-- The theories that have a name. -/
def namedTheories : List TheoryId := [.arrays, .uf, .bv, .datatypes, .strings, .arith, .sets]

def unknownTheoryError : String :=
  "can't extract a logic string from LogicInfo; at least one active theory is unknown to LogicInfo::getLogicString() !"

def getLogicString (info : LogicInfo) : Except String (List Char) :=
  if !info.locked then .error notLockedError
  else if info.logicString ≠ [] then .ok info.logicString
  else
    let front := printIf (!info.theories .quantifiers) "QF_"
    match info.eq qfAllSupported with
    | .error msg => .error msg
    | .ok true => .ok (front ++ "ALL".toList)
    | .ok false =>
        match info.hasEverything with
        | .error msg => .error msg
        | .ok true => .ok (front ++ "ALL".toList)
        | .ok false =>
            let seen := namedTheories.countP info.theories
            if seen ≠ info.sharingTheories then .error unknownTheoryError
            else .ok (front ++ (info.theoriesString ++ printIf (seen == 0) "SAT"))

inductive Call
  | enableTheory (id : TheoryId)
  | disableTheory (id : TheoryId)
  | enableIntegers
  | disableIntegers
  | enableReals
  | disableReals
  | arithOnlyDifference
  | arithOnlyLinear
  | arithNonLinear
  | enableEverything
  | disableEverything

def Call.apply : Call → LogicInfo → Except String LogicInfo
  | .enableTheory id => LogicInfo.enableTheory id
  | .disableTheory id => LogicInfo.disableTheory id
  | .enableIntegers => LogicInfo.enableIntegers
  | .disableIntegers => LogicInfo.disableIntegers
  | .enableReals => LogicInfo.enableReals
  | .disableReals => LogicInfo.disableReals
  | .arithOnlyDifference => LogicInfo.arithOnlyDifference
  | .arithOnlyLinear => LogicInfo.arithOnlyLinear
  | .arithNonLinear => LogicInfo.arithNonLinear
  | .enableEverything => LogicInfo.enableEverything
  | .disableEverything => LogicInfo.disableEverything

/-- A logic that is reached from a constructor by calls that are allowed. -/
inductive Run (allowed : LogicInfo → Call → Prop) : LogicInfo → Prop
  | general : Run allowed general
  | ofString {logicString : List Char} {info : LogicInfo} (accepted : ofString logicString = .ok info) : Run allowed info
  | step {info info' : LogicInfo} {call : Call} (before : Run allowed info) (isAllowed : allowed info call)
      (isResult : call.apply info = .ok info')
    : Run allowed info'

/-- Any calls. -/
def Reached : LogicInfo → Prop := Run fun _ _ => True

end LogicInfo

end Ava6.Theory
