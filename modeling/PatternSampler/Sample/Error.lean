import PatternSampler.Pattern.Tag
import PatternSampler.Text.Quoted

/-!
# Why a pattern has no sample

Every error carries the offset of the node at fault, and what about it was wrong.
-/

namespace PatternSampler

/-- Why no sample could be made. -/
inductive SampleError where
  /-- Nothing is left to choose from. -/
  | exhaustedPool (offset : UInt64)
  /-- A set of characters lists none. -/
  | emptyCharset (offset : UInt64)
  /-- A node of another kind stands in the place of a quantifier. -/
  | notAQuantifier (offset : UInt64) (found : Tag)
  /-- No count lies within the bounds of a quantifier, or one too large does. -/
  | invalidBounds (offset : UInt64) (min max : Int)
  /-- An end of a range gives no character, or several. -/
  | invalidRangeEndpoint (offset : UInt64) (got : String)
  /-- A range starts after it ends. -/
  | backwardsRange (offset : UInt64) (first last : Char)
  /-- The code of a numeric escape is no numeral of its base. -/
  | invalidCode (offset : UInt64) (code : String) (base : Nat)
  /-- A number is no character's code point. -/
  | invalidCodePoint (offset : UInt64) (value : UInt32)
  /-- A symbol stands for no control character. -/
  | unknownControl (offset : UInt64) (code : Char)
  /-- A node lies deeper than the limit allows. -/
  | tooDeep (offset : UInt64) (limit : Nat)
  deriving DecidableEq, Repr

namespace SampleError

/-- The offset of the node at fault. -/
def offset : SampleError → UInt64
  | exhaustedPool o | emptyCharset o | notAQuantifier o _ | invalidBounds o _ _
  | invalidRangeEndpoint o _ | backwardsRange o _ _ | invalidCode o _ _ | invalidCodePoint o _
  | unknownControl o _ | tooDeep o _ => o

/-- The sentence that reports an error. -/
def message : SampleError → String
  | exhaustedPool o => s!"no candidate character remains for the inverted charset at offset {o}"
  | emptyCharset o => s!"charset at offset {o} has no members"
  | notAQuantifier o found =>
    s!"expected a quantifier at offset {o}, found `" ++ found.name ++ "`"
  | invalidBounds o min max => s!"quantifier at offset {o} has bounds {min}..={max}"
  | invalidRangeEndpoint o got =>
    s!"range endpoint at offset {o} must be one character, got " ++ Text.quote got
  | backwardsRange o first last =>
    s!"range at offset {o} runs backwards from " ++ Text.quoteChar first ++ " to " ++
      Text.quoteChar last
  | invalidCode o code base => s!"`{code}` at offset {o} is not a base-{base} number"
  | invalidCodePoint o value =>
    "code point 0x" ++ Text.hexadecimal value.toNat ++ s!" at offset {o} is not a character"
  | unknownControl o code => s!"unknown control character `\\c{code}` at offset {o}"
  | tooDeep o limit => s!"pattern nesting at offset {o} exceeds the depth limit of {limit}"

end SampleError

end PatternSampler
