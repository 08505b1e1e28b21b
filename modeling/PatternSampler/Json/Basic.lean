import PatternSampler.Decimal.Layout
import PatternSampler.Text.Quoted

/-!
# JSON values

A value keeps everything its text says except spacing and spelling: the members of an object stay
in order, and a name may occur in it twice. A number is an integer when it is written as one and
lies in the range of sixty-four bits, signed or unsigned; any other number is a float.
-/

namespace PatternSampler

/-- A JSON value. -/
inductive Json where
  | null
  | bool (b : Bool)
  | integer (n : Int)
  | float (x : Float)
  | string (s : String)
  | array (items : List Json)
  | object (members : List (String × Json))
  deriving Inhabited

namespace Json

/-- What a reader sees of a value before it looks inside: a scalar, or the bracket that opens a
container. -/
inductive Head where
  | null
  | bool (b : Bool)
  | integer (n : Int)
  | float (x : Float)
  | string (s : String)
  | array
  | object

/-- The head of a value. -/
def head : Json → Head
  | null => .null
  | bool b => .bool b
  | integer n => .integer n
  | float x => .float x
  | string s => .string s
  | array _ => .array
  | object _ => .object

/-- Floats are written positionally from a hundred-thousandth up to sixteen digits before the
point, and with an exponent elsewhere. -/
def floatLayout : Decimal.Layout where
  least := -5
  most := 15

/-- How a message names what was found. -/
def Head.describe : Head → String
  | .null => "null"
  | .bool b => s!"boolean `{b}`"
  | .integer n => s!"integer `{n}`"
  | .float x => "floating point `" ++ floatLayout.write x ++ "`"
  | .string s => "string " ++ Text.quote s
  | .array => "sequence"
  | .object => "map"

end Json

end PatternSampler
