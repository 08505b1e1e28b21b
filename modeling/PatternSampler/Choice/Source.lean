/-!
# Choices and their sources

A sample is made by a sequence of choices. A `Query` is one choice, with the bounds it is asked
within; a `Source` answers queries and may change its state in doing so. Three simple sources are
defined here: two that always take the same end, and one that follows a script.
-/

namespace PatternSampler

/-- A choice to be made. -/
inductive Query where
  /-- One of two sides. -/
  | boolean
  /-- An integer within bounds, ends included. -/
  | integer (least most : UInt32)
  /-- A printable ASCII character. -/
  | character
  deriving DecidableEq, Repr

/-- What a query is answered with. -/
@[reducible] def Query.Answer : Query → Type
  | .boolean => Bool
  | .integer .. => UInt32
  | .character => Char

/-- A query with its answer. -/
structure Call where
  query : Query
  answer : query.Answer

/-- Something that answers queries, with states of type `σ`. -/
structure Source (σ : Type) where
  answer : (q : Query) → σ → q.Answer × σ

namespace Source

/-- Always takes the second side, the least integer and the first character. -/
def lowest : Source Unit where
  answer
    | .boolean, s => (false, s)
    | .integer least _, s => (least, s)
    | .character, s => (' ', s)

/-- Always takes the first side, the greatest integer and the last character. -/
def highest : Source Unit where
  answer
    | .boolean, s => (true, s)
    | .integer _ most, s => (most, s)
    | .character, s => ('~', s)

/-- The next value of a script that starts over at its end, and the values left. An empty script
gives zeros. -/
def nextOf (script : List UInt64) : List UInt64 → UInt64 × List UInt64
  | v :: rest => (v, rest)
  | [] =>
    match script with
    | v :: rest => (v, rest)
    | [] => (0, [])

/-- How many integers lie within bounds. -/
def extent (least most : UInt32) : UInt64 :=
  most.toUInt64 - least.toUInt64 + 1

/-- Takes one value of a script for every query, modulo the number of possible answers. Its state
is the part of the script that is still to come. -/
def scripted (script : List UInt64) : Source (List UInt64) where
  answer
    | .boolean, s =>
      let (v, s) := nextOf script s
      (v % 2 == 1, s)
    | .integer least most, s =>
      let (v, s) := nextOf script s
      ((least.toUInt64 + v % extent least most).toUInt32, s)
    | .character, s =>
      let (v, s) := nextOf script s
      (Char.ofNat (0x20 + (v % 95).toNat), s)

end Source

end PatternSampler
