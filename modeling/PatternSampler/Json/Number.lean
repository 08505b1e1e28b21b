import PatternSampler.Json.Basic
import PatternSampler.Json.Fault
import PatternSampler.Decimal.Scaling

/-!
# JSON numbers

A number is read digit by digit into a significand of sixty-four bits. Digits that it has no room
for are left out: each of them raises the power of ten if it stands before the point and changes
nothing if it stands behind it. `Number.read` gives an integer when the text has neither point nor
exponent and the value fits, and a float otherwise.
-/

namespace PatternSampler.Json.Number

/-- A decimal digit. -/
def isDigit (c : Char) : Bool := '0' ≤ c && c ≤ '9'

/-- The digits at the front of a text, and the text after them. -/
def digits (cs : List Char) : List Char × List Char :=
  cs.span isDigit

/-- A significand extended by digits until one finds no room, and how many digits were left out. -/
def extend (significand : Nat) : List Char → Nat × Nat
  | [] => (significand, 0)
  | d :: ds =>
    let wider := significand * 10 + (d.toNat - '0'.toNat)
    if wider ≤ 0xFFFFFFFFFFFFFFFF then extend wider ds else (significand, ds.length + 1)

/-- The float with the given sign, significand and power of ten. -/
def toFloat (negative : Bool) (significand : Nat) (exponent : Int) : Except Fault Float :=
  match Decimal.scaled significand.toUInt64.toFloat exponent with
  | none => .error .numberOutOfRange
  | some x => .ok (if negative then -x else x)

/-- The largest exponent that is taken at its word. Beyond it every number is out of range, or
zero. -/
def maxExponent : Nat := 0x7FFFFFFF

/-- The float whose exponent starts after the letter, given its significand and the power of ten
that the digits around the point stand for. -/
def exponentPart (negative : Bool) (significand : Nat) (power : Int) (cs : List Char) :
    Except Fault (Json × List Char) := do
  let (lower, cs) := match cs with
    | '+' :: rest => (false, rest)
    | '-' :: rest => (true, rest)
    | cs => (false, cs)
  match digits cs with
  | ([], []) => .error (.cutShort .value)
  | ([], _) => .error .badNumber
  | (ds, rest) =>
    let e := ds.foldl (fun n d => n * 10 + (d.toNat - '0'.toNat)) 0
    if maxExponent < e then
      if significand ≠ 0 ∧ lower = false then .error .numberOutOfRange
      else .ok (.float (if negative then -0.0 else 0.0), rest)
    else
      let x ← toFloat negative significand (if lower then power - e else power + e)
      .ok (.float x, rest)

/-- The end of a number with the given significand and power of ten that has a point or too many
digits: an exponent or nothing. -/
def floatTail (negative : Bool) (significand : Nat) (power : Int) (cs : List Char) :
    Except Fault (Json × List Char) :=
  match cs with
  | 'e' :: rest => exponentPart negative significand power rest
  | 'E' :: rest => exponentPart negative significand power rest
  | cs => do
    let x ← toFloat negative significand power
    .ok (.float x, cs)

/-- The integer of the given sign and magnitude, or the float nearest to it if it is out of range or
a negative zero. -/
def whole (negative : Bool) (magnitude : Nat) : Json :=
  if negative = false then .integer magnitude
  else if 0 < magnitude ∧ magnitude ≤ 0x8000000000000000 then .integer (-magnitude)
  else .float (-magnitude.toUInt64.toFloat)

/-- A number after its sign. -/
def unsigned (negative : Bool) (cs : List Char) : Except Fault (Json × List Char) :=
  match digits cs with
  | ([], []) => .error (.cutShort .value)
  | ([], _) => .error .badNumber
  | ('0' :: _ :: _, _) => .error .badNumber
  | (ds, rest) =>
    let (significand, leftOut) := extend 0 ds
    match rest with
    | '.' :: rest =>
      match digits rest with
      | ([], []) => .error (.cutShort .value)
      | ([], _) => .error .badNumber
      | (fs, rest) =>
        let (wider, ignored) := extend significand fs
        floatTail negative wider (leftOut - (fs.length - ignored : Nat)) rest
    | 'e' :: rest => exponentPart negative significand leftOut rest
    | 'E' :: rest => exponentPart negative significand leftOut rest
    | rest =>
      if leftOut = 0 then .ok (whole negative significand, rest)
      else floatTail negative significand leftOut rest

/-- A number that starts with the given character. -/
def read (c : Char) (rest : List Char) : Except Fault (Json × List Char) :=
  if c = '-' then unsigned true rest else unsigned false (c :: rest)

end PatternSampler.Json.Number
