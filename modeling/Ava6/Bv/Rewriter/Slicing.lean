import Ava6.Bv.Rewriter.BitwiseSlicing

/-! The rules that cut bit-vectors anew, and when the result is well-sorted and has the old bits.
-/

namespace Ava6.Bv.Rewriter

inductive SlicingRule
  | concatFlatten | concatExtractMerge | concatConstantMerge
  | extractConcat | extractExtract | extractSignExtend
  | andOrXorConcatPullUp | bitwiseSlicing

namespace SlicingRule

def applies : SlicingRule → Node → Bool
  | .concatFlatten => ConcatFlatten.applies
  | .concatExtractMerge => ConcatExtractMerge.applies
  | .concatConstantMerge => ConcatConstantMerge.applies
  | .extractConcat => ExtractConcat.applies
  | .extractExtract => ExtractExtract.applies
  | .extractSignExtend => ExtractSignExtend.applies
  | .andOrXorConcatPullUp => AndOrXorConcatPullUp.applies
  | .bitwiseSlicing => BitwiseSlicing.applies

def apply : SlicingRule → Node → Node
  | .concatFlatten => ConcatFlatten.apply
  | .concatExtractMerge => ConcatExtractMerge.apply
  | .concatConstantMerge => ConcatConstantMerge.apply
  | .extractConcat => ExtractConcat.apply
  | .extractExtract => ExtractExtract.apply
  | .extractSignExtend => ExtractSignExtend.apply
  | .andOrXorConcatPullUp => AndOrXorConcatPullUp.apply
  | .bitwiseSlicing => BitwiseSlicing.apply

/-- The numbers that two of the rules keep in an `int` fit into one. -/
def Fits : SlicingRule → Node → Prop
  | .extractConcat, .apply (.extract high _) (.cons concat _) => ExtractConcat.Fits concat.children high
  | .bitwiseSlicing, node => node.getSize ≤ 2 ^ 31
  | _, _ => True

end SlicingRule

end Ava6.Bv.Rewriter
