/-!
# Limits of a sample

How deep a pattern may be nested, and how far a repetition without an upper bound goes.
-/

namespace PatternSampler

/-- The limits that a sample keeps to. -/
structure Config where
  /-- How many nodes may lie on a path from the root. -/
  maxDepth : Nat := 256
  /-- One end of the number of repetitions above the least one, where there is no upper bound. -/
  extraFrom : UInt32 := 3
  /-- The other end. The two may be given in either order. -/
  extraTo : UInt32 := 7
  deriving DecidableEq, Repr

namespace Config

/-- The fewest repetitions above the least one. -/
def leastExtra (c : Config) : UInt32 := min c.extraFrom c.extraTo

/-- The most repetitions above the least one. -/
def mostExtra (c : Config) : UInt32 := max c.extraFrom c.extraTo

end Config

end PatternSampler
