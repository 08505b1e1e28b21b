import PatternSampler.Pattern.Node
import PatternSampler.Sample.Config
import PatternSampler.Sample.Sampler

/-!
# How often to repeat

A quantifier stands for the counts from its lower to its upper bound. A negative lower bound counts
as zero. Where there is no upper bound, one is chosen first, a little above the lower one. The
counts have thirty-two bits, while the bounds are written with sixty-four, so the bounds are
compared as integers without a width before a count is asked for.
-/

namespace PatternSampler

namespace Sampler

/-- The greatest count. -/
def maxCount : Int := 0xFFFFFFFF

/-- The greatest bound that can be written. -/
def maxBound : Int := 0x7FFFFFFFFFFFFFFF

/-- Asks for a count within the bounds of the quantifier at the given offset. -/
def countWithin (offset : UInt64) (least most : Int) : Sampler Nat :=
  if least ≤ most ∧ most ≤ maxCount then do
    let n ← integer (UInt32.ofNat least.toNat) (UInt32.ofNat most.toNat)
    pure n.toNat
  else fail (.invalidBounds offset least most)

/-- Asks for a count that a quantifier allows. -/
def count (cfg : Config) (quantifier : Node) : Sampler Nat :=
  match quantifier with
  | .quantifier mark bounds _ =>
    let least := max bounds.min.toInt 0
    match bounds.max with
    | some most => countWithin mark.offset least most.toInt
    | none => do
      let extra ← integer cfg.leastExtra cfg.mostExtra
      let most := least + extra.toNat
      if maxBound < most then fail (.invalidBounds mark.offset least maxBound)
      else
        tell (.capped mark.offset most)
        countWithin mark.offset least most
  | other => fail (.notAQuantifier other.offset other.tag)

end Sampler

end PatternSampler
