import PatternSampler.Pattern.Form

/-!
# Pattern trees from JSON

A node is an object. Its mark is read first, then its tag, then the fields of its kind, each in one
pass over the members from left to right, so an ill-formed offset or text is reported before a bad
tag and a bad tag before a bad field. Members that the kind has no use for are passed over.
-/

namespace PatternSampler

/-- The parts of a mark found so far. -/
structure MarkForm where
  offset : Option UInt64 := none
  text : Option String := none

namespace MarkForm

/-- The form with one more member entered. -/
def fill (form : MarkForm) (field : String) (scalar : Json.Head) : Except ShapeError MarkForm :=
  if field = "offset" then
    (Form.put field form.offset scalar.toOffset).map ({ form with offset := · })
  else if field = "text" then
    (Form.put field form.text scalar.toText).map ({ form with text := · })
  else .ok form

/-- The mark of a form. Both parts may be left out. -/
def complete (form : MarkForm) : Mark where
  offset := form.offset.getD 0
  text := form.text.getD ""

end MarkForm

/-- A form with the members of a node entered from left to right. -/
def MarkForm.fillFrom (form : MarkForm) : List (String × Json) → Except ShapeError MarkForm
  | [] => .ok form
  | (field, j) :: members => do
    let form ← form.fill field j.head
    form.fillFrom members

/-- The mark given by the members of a node. -/
def Mark.ofMembers (members : List (String × Json)) : Except ShapeError Mark :=
  (MarkForm.fillFrom { } members).map MarkForm.complete

/-- The tag found so far, or the one among the members of a node. -/
def Tag.search (found : Option Tag) : List (String × Json) → Except ShapeError (Option Tag)
  | [] => .ok found
  | (field, j) :: members => do
    let found ← if field = "type" then Form.put field found j.head.toTag else .ok found
    Tag.search found members

/-- The tag given by the members of a node. -/
def Tag.ofMembers (members : List (String × Json)) : Except ShapeError Tag := do
  let tag ← Tag.search none members
  Form.need "type" tag

namespace Node

mutual

/-- The node that a value describes. -/
def ofJson : Json → Except ShapeError Node
  | .object members => do
    let mark ← Mark.ofMembers members
    let tag ← Tag.ofMembers members
    let form ← fillFrom (.blank tag) members
    form.complete mark
  | j => .error (.wrongType j.head .node)

/-- The nodes that a value lists. -/
def listOfJson : Json → Except ShapeError (List Node)
  | .array items => ofItems items
  | j => .error (.wrongType j.head .sequence)

/-- The nodes that some values describe. -/
def ofItems : List Json → Except ShapeError (List Node)
  | [] => .ok []
  | j :: js => do
    let n ← ofJson j
    let ns ← ofItems js
    .ok (n :: ns)

/-- A form with the members of a node entered from left to right. -/
def fillFrom (form : Form) : List (String × Json) → Except ShapeError Form
  | [] => .ok form
  | (field, j) :: members => do
    let form ← form.fill field j.head (fun _ => ofJson j) (fun _ => listOfJson j)
    fillFrom form members

end

/-- The node with the given mark whose tag and fields are among the members. -/
def ofMembers (mark : Mark) (members : List (String × Json)) : Except ShapeError Node := do
  let tag ← Tag.ofMembers members
  let form ← fillFrom (.blank tag) members
  form.complete mark

/-- An object is read mark first, and then its tag and fields. -/
theorem ofJson_object (members : List (String × Json)) :
    ofJson (.object members) = (do let mark ← Mark.ofMembers members; ofMembers mark members) :=
  rfl

end Node

end PatternSampler
