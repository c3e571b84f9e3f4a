import Ava6.Library.BitList
import Ava6.Library.BitVecAppend
import Ava6.Library.BitVecImage
import Ava6.Library.BitVecOrder
import Ava6.Library.Content
import Ava6.Library.Derivation
import Ava6.Library.Frequency
import Ava6.Library.HeapOrder
import Ava6.Library.LinearForm
import Ava6.Library.LinkedList
import Ava6.Library.MonoidOn
import Ava6.Library.Numeral
import Ava6.Library.Occurrence
import Ava6.Library.OpenAutomaton
import Ava6.Library.OrderedMap
import Ava6.Library.ProductBits
import Ava6.Library.Sat
import Ava6.Library.Snapshot
import Ava6.Library.Vec
import Ava6.Library.Worklist
import Ava6.Util.BinHeap
import Ava6.Util.BinHeapRuns
import Ava6.Util.BitVector
import Ava6.Util.BitVectorSmtLib
import Ava6.Util.Cardinality
import Ava6.Util.Integer
import Ava6.Util.InternalString
import Ava6.Util.StringReading
import Ava6.Context.Backtrack
import Ava6.Context.Context
import Ava6.Context.Creation
import Ava6.Context.Objects
import Ava6.Context.Observation
import Ava6.Context.Pop
import Ava6.Context.Refinement
import Ava6.Context.Saving
import Ava6.Theory.LogicInfo
import Ava6.Theory.LogicReading
import Ava6.Theory.LogicRoundTrip
import Ava6.Theory.LogicRuns
import Ava6.Theory.LogicString
import Ava6.Expr.AciNorm
import Ava6.Expr.AciNormAbsorb
import Ava6.Expr.AciNormChecks
import Ava6.Expr.AciNormSound
import Ava6.Expr.AciNormValue
import Ava6.Expr.CanonicalRenaming
import Ava6.Expr.CanonicalTerms
import Ava6.Expr.DType
import Ava6.Expr.DTypeGroundTerms
import Ava6.Expr.NaryInstances
import Ava6.Expr.NaryMatchPaths
import Ava6.Expr.NaryMatchSearch
import Ava6.Expr.NaryMatchTrie
import Ava6.Expr.NaryMatches
import Ava6.Expr.NaryMatching
import Ava6.Expr.NaryTermUtil
import Ava6.Expr.TermCanonize
import Ava6.Expr.TermCanonizeRuns
import Ava6.Expr.TermOrder
import Ava6.Expr.TermRenaming
import Ava6.Parser.LexerView
import Ava6.Parser.Overloading
import Ava6.Parser.Smt2Lexer
import Ava6.Parser.SymbolBinding
import Ava6.Parser.SymbolScopes
import Ava6.Parser.SymbolTable
import Ava6.Parser.Symbols
import Ava6.Parser.Tokenisation
import Ava6.Booleans.CircuitPropagator
import Ava6.Booleans.CircuitPropagatorRuns
import Ava6.Booleans.CircuitPropagatorSound
import Ava6.Booleans.Formulas
import Ava6.Booleans.Node
import Ava6.Booleans.ProofChecker
import Ava6.Booleans.ProofCheckerSound
import Ava6.Booleans.TheoryBoolFlatten
import Ava6.Booleans.TheoryBoolRewriter
import Ava6.Booleans.TheoryBoolRewriterSound
import Ava6.Cnf.Assertions
import Ava6.Cnf.CnfStream
import Ava6.Cnf.Conversion
import Ava6.Cnf.Definitions
import Ava6.Cnf.Exactness
import Ava6.Cnf.Formula
import Ava6.Arith.ApproximateConstant
import Ava6.Arith.BoundInference
import Ava6.Arith.BoundOrigins
import Ava6.Arith.BoundRuns
import Ava6.Arith.BvConversion
import Ava6.Arith.Linear.Matrix
import Ava6.Arith.Linear.MatrixCopy
import Ava6.Arith.Linear.MatrixEntries
import Ava6.Arith.Linear.MatrixLinks
import Ava6.Arith.Linear.RowAddition
import Ava6.Arith.Linear.RowEquations
import Ava6.Arith.Linear.RowOperations
import Ava6.Arith.Linear.Tableau
import Ava6.Arith.Linear.TableauPivot
import Ava6.Arith.Linear.TableauRows
import Ava6.Arith.Linear.TableauRuns
import Ava6.Arith.Node
import Ava6.Arith.NodeTypes
import Ava6.Arith.OperatorElim
import Ava6.Arith.Poly.MSum
import Ava6.Arith.Poly.PolyNorm
import Ava6.Arith.Poly.PolyNormAt
import Ava6.Arith.Poly.PolyNormPolynomial
import Ava6.Arith.Poly.PolyNormSound
import Ava6.Arith.Poly.PolyNormTraversal
import Ava6.Arith.Poly.PolyNormValue
import Ava6.Arith.Poly.ProofChecker
import Ava6.Arith.ProofChecker
import Ava6.Arith.ProofCheckerExact
import Ava6.Arith.ProofCheckerSound
import Ava6.Arith.Rewriter.Addition
import Ava6.Arith.Rewriter.AtomValues
import Ava6.Arith.Rewriter.Atoms
import Ava6.Arith.Rewriter.FlatSums
import Ava6.Arith.Rewriter.Node
import Ava6.Arith.Rewriter.NormalForms
import Ava6.Arith.Rewriter.RewriteAtom
import Ava6.Bv.Bitblast.Division
import Ava6.Bv.Bitblast.Gates
import Ava6.Bv.Bitblast.Shifts
import Ava6.Bv.Bitblast.Strategies
import Ava6.Bv.Bitblast.Utils
import Ava6.Bv.Formula
import Ava6.Bv.NodeBitblaster
import Ava6.Bv.Rewriter.BitwiseSlicing
import Ava6.Bv.Rewriter.ConcatExtract
import Ava6.Bv.Rewriter.ExtendedConstants
import Ava6.Bv.Rewriter.MultOverflow
import Ava6.Bv.Rewriter.MultSltMult
import Ava6.Bv.Rewriter.Node
import Ava6.Bv.Rewriter.OperatorElimination
import Ava6.Bv.Rewriter.Slicing
import Ava6.Bv.Term
import Ava6.Bv.Variables
import Ava6.Arrays.ConstantArray
import Ava6.Arrays.Node
import Ava6.Arrays.NormalForm
import Ava6.Arrays.NormalizeConstant
import Ava6.Arrays.Rewriter
import Ava6.Arrays.RewriterConstants
import Ava6.Arrays.RewriterSound
import Ava6.Arrays.TypeEnumerator
import Ava6.Strings.ApproxTerm
import Ava6.Strings.ArithApprox
import Ava6.Strings.ArithEntail
import Ava6.Strings.ComponentContains
import Ava6.Strings.ConcatSplit
import Ava6.Strings.ConstantEndpoints
import Ava6.Strings.ContainsEqs
import Ava6.Strings.Entailment.ArithMSum
import Ava6.Strings.Entailment.Assumption
import Ava6.Strings.Entailment.Node
import Ava6.Strings.Enumeration
import Ava6.Strings.FindApprox
import Ava6.Strings.LengthIntro
import Ava6.Strings.MembershipReduction
import Ava6.Strings.NameBound
import Ava6.Strings.NfaConstruction
import Ava6.Strings.NfaState
import Ava6.Strings.NonContainment
import Ava6.Strings.PolyNorm
import Ava6.Strings.RegExp
import Ava6.Strings.RegExpEval
import Ava6.Strings.RegExpLength
import Ava6.Strings.SplitSearch
import Ava6.Strings.SubstrStrip
import Ava6.Strings.SymbolicLength
import Ava6.Strings.Term
import Ava6.Strings.TestOutcome
import Ava6.Strings.TypeEnumerator
import Ava6.Strings.Word
import Ava6.Quantifiers.BvInverter
import Ava6.Quantifiers.BvInverterChildren
import Ava6.Quantifiers.BvInverterEqualities
import Ava6.Quantifiers.BvInverterLiterals
import Ava6.Quantifiers.BvInverterShapes
import Ava6.Quantifiers.BvInverterUtils
import Ava6.Quantifiers.Invertibility
import Ava6.Quantifiers.Invertibility.AndOr
import Ava6.Quantifiers.Invertibility.Ashr
import Ava6.Quantifiers.Invertibility.Concat
import Ava6.Quantifiers.Invertibility.Lshr
import Ava6.Quantifiers.Invertibility.Mult
import Ava6.Quantifiers.Invertibility.Sext
import Ava6.Quantifiers.Invertibility.Shift
import Ava6.Quantifiers.Invertibility.Shl
import Ava6.Quantifiers.Invertibility.Udiv
import Ava6.Quantifiers.Invertibility.Urem
import Ava6.Quantifiers.Solvability
