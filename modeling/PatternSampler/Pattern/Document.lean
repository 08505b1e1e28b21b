import PatternSampler.Json.Reader
import PatternSampler.Pattern.Decode

/-!
# Pattern trees from text

A document holds one pattern tree. The reader goes through the members of its root as they come:
an offset and a text are checked where they stand, so what is wrong with them is reported before
anything that follows, and the other members are kept for the end of the object. What lies inside
them has by then been read in full.
-/

namespace PatternSampler

/-- Why a text is no pattern tree: it is no JSON document, or one of another shape. -/
inductive DocumentError where
  | malformed (fault : Json.Fault)
  | wrongShape (error : ShapeError)

/-- The sentence that reports a document error. -/
def DocumentError.message : DocumentError → String
  | .malformed fault => fault.message
  | .wrongShape error => error.message

/-- The members of a root found so far, with the latest first. -/
structure Draft where
  mark : MarkForm := { }
  kept : List (String × Json) := []

namespace Draft

/-- Whether a part of the mark has been found. -/
def holds (draft : Draft) (field : String) : Bool :=
  (field = "offset" && draft.mark.offset.isSome) || (field = "text" && draft.mark.text.isSome)

/-- Reads the member with the given name. The values inside have one bracket less to open than a
whole document. -/
def member (fuel : Nat) (draft : Draft) (field : String) (cs : List Char) :
    Except DocumentError (Draft × List Char) :=
  if draft.holds field then .error (.wrongShape (.duplicate field))
  else if field = "offset" ∨ field = "text" then do
    let cs ← (Json.colon cs).mapError .malformed
    let (scalar, cs) ← (Json.headOf cs).mapError .malformed
    let mark ← (draft.mark.fill field scalar).mapError .wrongShape
    .ok ({ draft with mark }, cs)
  else do
    let cs ← (Json.colon cs).mapError .malformed
    let (j, cs) ← (Json.value fuel (Json.maxNesting - 1) cs).mapError .malformed
    .ok ({ draft with kept := (field, j) :: draft.kept }, cs)

/-- The node of a draft. -/
def complete (draft : Draft) : Except ShapeError Node :=
  Node.ofMembers draft.mark.complete draft.kept.reverse

end Draft

/-- The pattern tree at the front of a text, each of whose containers has fewer than `fuel` items,
and the text after it. -/
def Node.read (fuel : Nat) (cs : List Char) : Except DocumentError (Node × List Char) := do
  let (head, rest) ← (Json.headOf cs).mapError .malformed
  match head with
  | .object =>
    let (draft, rest) ← Json.membersFrom .malformed (Draft.member fuel) fuel true { } rest
    let node ← draft.complete.mapError .wrongShape
    .ok (node, rest)
  | head => .error (.wrongShape (.wrongType head .node))

/-- The pattern tree that a text holds. -/
def Node.ofText (text : String) : Except DocumentError Node := do
  let cs := text.toList
  let (node, rest) ← Node.read (cs.length + 1) cs
  (Json.ending rest).mapError .malformed
  .ok node

end PatternSampler
