import PatternSampler.Numeral
import PatternSampler.Pattern.Node
import PatternSampler.Sample.Sampler

/-!
# Characters by code point

A code point is a character unless it lies in the block of the surrogates or beyond the last plane.
A numeric escape gives a code point in digits; a range is sampled over the code points between two
characters, counted as if the surrogates were not there.
-/

namespace PatternSampler

/-- The first surrogate. -/
def firstSurrogate : UInt32 := 0xD800

/-- The last surrogate. -/
def lastSurrogate : UInt32 := 0xDFFF

/-- How many surrogates there are. -/
def surrogateCount : UInt32 := 0x800

/-- The base of a numeric escape. -/
def EscapeForm.base : EscapeForm → Nat
  | .unicode | .hex => 16
  | .octal => 8

/-- The character with a code point, for a node at the given offset. -/
def scalar (offset : UInt64) (value : UInt32) : Except SampleError Char :=
  if h : value.isValidChar then .ok ⟨value, h⟩ else .error (.invalidCodePoint offset value)

/-- The character of a numeric escape at the given offset. -/
def escaped (offset : UInt64) (form : EscapeForm) (code : String) : Except SampleError Char :=
  match Numeral.read form.base Numeral.max32 code with
  | .ok value => scalar offset (UInt32.ofNat value)
  | .error _ => .error (.invalidCode offset code form.base)

namespace Sampler

/-- The value or the error of a computation that asks for nothing. -/
def ofExcept {α : Type} : Except SampleError α → Sampler α
  | .ok a => done a
  | .error e => fail e

/-- Asks for a code point between those of two characters, ends included and surrogates left
out. -/
def between (first last : Char) : Sampler UInt32 :=
  if lastSurrogate < first.val ∨ last.val < firstSurrogate then integer first.val last.val
  else do
    let value ← integer first.val (last.val - surrogateCount)
    pure (if firstSurrogate ≤ value then value + surrogateCount else value)

end Sampler

end PatternSampler
