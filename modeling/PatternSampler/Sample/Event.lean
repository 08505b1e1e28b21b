import PatternSampler.Pattern.Tag

/-!
# What happens while a sample is made

An `Event` is something that happens while a pattern is sampled and that its sample alone does not
show. Some events are worth a line in a log; `Event.record?` gives the record.
-/

namespace PatternSampler

/-- A node's place in its tree: the steps from the node up to the root, each the index of a child
among its siblings. -/
abbrev Path := List Nat

/-- How much a record matters. -/
inductive Level where
  | trace
  | debug
  deriving DecidableEq, Repr

/-- A line in a log. -/
structure Record where
  level : Level
  message : String
  deriving DecidableEq, Repr

/-- Something that happens while a pattern is sampled. -/
inductive Event where
  /-- A node is about to add its text. -/
  | visit (path : Path)
  /-- A capturing group is entered, for the first time if `isNew`. -/
  | enter (path : Path) (offset : UInt64) (number : Nat) (isNew : Bool)
  /-- A capturing group is left, and its text kept. -/
  | leave (path : Path) (text : String)
  /-- A back-reference has added the text of a group. -/
  | refer (number : Nat) (text : String)
  /-- An upper bound was chosen for a quantifier without one. -/
  | capped (offset : UInt64) (most : Int)
  /-- A sample is complete. -/
  | complete (length : Nat) (kind : Tag) (offset : UInt64)
  deriving DecidableEq, Repr

namespace Record

/-- The record of a group that has got its number. -/
def numbered (offset : UInt64) (number : Nat) : Record :=
  ⟨.trace, s!"capture group at offset {offset} is group {number}"⟩

/-- The record of a quantifier that has got an upper bound. -/
def capped (offset : UInt64) (most : Int) : Record :=
  ⟨.trace, s!"unbounded quantifier at offset {offset} capped at {most}"⟩

/-- The record of a complete sample, with its length in characters. -/
def complete (length : Nat) (kind : Tag) (offset : UInt64) : Record :=
  ⟨.debug, s!"generated {length} chars from `" ++ kind.name ++ s!"` node at offset {offset}"⟩

end Record

/-- The record of an event that is worth one. -/
def Event.record? : Event → Option Record
  | .enter _ offset number true => some (.numbered offset number)
  | .capped offset most => some (.capped offset most)
  | .complete length kind offset => some (.complete length kind offset)
  | _ => none

end PatternSampler
