import PatternSampler.Json.Basic
import PatternSampler.Pattern.Tag

/-!
# The shape of a pattern tree in JSON

A JSON document may well be no pattern tree: a value of the wrong type stands in some place, a field
occurs twice, or one is missing. `ShapeError` is the first such thing found. The functions on
`Json.Head` read the scalar fields, each of its own type.
-/

namespace PatternSampler

/-- What was looked for where something else was found. -/
inductive Expected where
  | offset
  | bound
  | groupNumber
  | string
  | boolean
  | character
  | sequence
  | node
  | tag
  deriving DecidableEq, Repr

/-- How a message names what was looked for. -/
def Expected.describe : Expected → String
  | .offset => "usize"
  | .bound => "i64"
  | .groupNumber => "u32"
  | .string => "a string"
  | .boolean => "a boolean"
  | .character => "a character"
  | .sequence => "a sequence"
  | .node => "struct RegexNode"
  | .tag => "variant identifier"

/-- Why a JSON document is no pattern tree. -/
inductive ShapeError where
  /-- A value of another type. -/
  | wrongType (found : Json.Head) (expected : Expected)
  /-- A value of the right type, but out of its range. -/
  | wrongValue (found : Json.Head) (expected : Expected)
  | duplicate (field : String)
  | missing (field : String)

/-- The sentence that reports a shape error. -/
def ShapeError.message : ShapeError → String
  | .wrongType found expected =>
    "invalid type: " ++ found.describe ++ ", expected " ++ expected.describe
  | .wrongValue found expected =>
    "invalid value: " ++ found.describe ++ ", expected " ++ expected.describe
  | .duplicate field => s!"duplicate field `{field}`"
  | .missing field => s!"missing field `{field}`"

namespace Json.Head

/-- An integer from `least` to `most`. -/
def toInteger (least most : Int) (expected : Expected) : Head → Except ShapeError Int
  | .integer n =>
    if least ≤ n ∧ n ≤ most then .ok n else .error (.wrongValue (.integer n) expected)
  | h => .error (.wrongType h expected)

/-- An offset: an unsigned integer of sixty-four bits. -/
def toOffset (h : Head) : Except ShapeError UInt64 :=
  (h.toInteger 0 0xFFFFFFFFFFFFFFFF .offset).map fun n => .ofNat n.toNat

/-- A bound of a repetition: a signed integer of sixty-four bits. -/
def toBound (h : Head) : Except ShapeError Int64 :=
  (h.toInteger (-0x8000000000000000) 0x7FFFFFFFFFFFFFFF .bound).map .ofInt

/-- An upper bound of a repetition, where null says that there is none. -/
def toUpperBound : Head → Except ShapeError (Option Int64)
  | .null => .ok none
  | h => h.toBound.map some

/-- The number of a group: an unsigned integer of thirty-two bits. -/
def toGroupNumber (h : Head) : Except ShapeError UInt32 :=
  (h.toInteger 0 0xFFFFFFFF .groupNumber).map fun n => .ofNat n.toNat

/-- A text. -/
def toText : Head → Except ShapeError String
  | .string s => .ok s
  | h => .error (.wrongType h .string)

/-- A flag. -/
def toFlag : Head → Except ShapeError Bool
  | .bool b => .ok b
  | h => .error (.wrongType h .boolean)

/-- A character, as a string that holds nothing else. -/
def toCharacter : Head → Except ShapeError Char
  | .string s =>
    match s.toList with
    | [c] => .ok c
    | _ => .error (.wrongValue (.string s) .character)
  | h => .error (.wrongType h .character)

/-- A tag, by its name or its place in the order. -/
def toTag : Head → Except ShapeError Tag
  | .string s => .ok (.ofName s)
  | .integer n => if 0 ≤ n then .ok (.ofIndex n.toNat) else .error (.wrongType (.integer n) .tag)
  | h => .error (.wrongType h .tag)

end Json.Head

end PatternSampler
