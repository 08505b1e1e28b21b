/-!
# Numerals with a bound

An unsigned numeral is an optional single `+` followed by at least one digit of its base, in
either case and with any number of leading zeros. `Numeral.read` gives its value when it is at
most a bound, and otherwise says what is wrong with it. The value is built from the left, and
reading stops at the first character at fault, so of a bad digit and a value that has outgrown the
bound the one further left is reported.
-/

namespace PatternSampler

/-- Why a text is no numeral within its bound. -/
inductive NumeralFault where
  /-- There is no character at all. -/
  | empty
  /-- A character is no digit of the base, or a sign has no digit after it. -/
  | badDigit
  /-- The value exceeds the bound. -/
  | tooLarge
  deriving DecidableEq, Repr

/-- The sentence that reports a fault. -/
def NumeralFault.message : NumeralFault → String
  | .empty => "cannot parse integer from empty string"
  | .badDigit => "invalid digit found in string"
  | .tooLarge => "number too large to fit in target type"

namespace Numeral

/-- The greatest number of thirty-two bits. -/
def max32 : Nat := 0xFFFFFFFF

/-- The greatest number of sixty-four bits. -/
def max64 : Nat := 0xFFFFFFFFFFFFFFFF

/-- The value of a character as a digit, in bases up to thirty-six. -/
def digit? (c : Char) : Option Nat :=
  if '0' ≤ c ∧ c ≤ '9' then some (c.toNat - '0'.toNat)
  else if 'a' ≤ c ∧ c ≤ 'z' then some (c.toNat - 'a'.toNat + 10)
  else if 'A' ≤ c ∧ c ≤ 'Z' then some (c.toNat - 'A'.toNat + 10)
  else none

/-- The value of a character as a digit of the given base. -/
def digitIn? (base : Nat) (c : Char) : Option Nat :=
  (digit? c).filter (· < base)

/-- The value of the digits read so far, extended by the digits that follow. -/
def accumulate (base bound : Nat) (value : Nat) : List Char → Except NumeralFault Nat
  | [] => .ok value
  | c :: rest =>
    match digitIn? base c with
    | none => .error .badDigit
    | some d =>
      if value * base + d ≤ bound then accumulate base bound (value * base + d) rest
      else .error .tooLarge

/-- The value of a numeral in the given base, at most `bound`. -/
def read (base bound : Nat) (text : String) : Except NumeralFault Nat :=
  match text.toList with
  | [] => .error .empty
  | ['+'] => .error .badDigit
  | '+' :: digits => accumulate base bound 0 digits
  | digits => accumulate base bound 0 digits

end Numeral

end PatternSampler
