import PatternSampler.Pattern.Shape

/-!
# Forms

The tag of a node says which fields it has. A `Form` holds the fields of a node of known kind that
have been found so far. `Form.fill` enters the next member of the node's object: a field of the
kind goes into its place, unless the place is taken, and any other member is passed over.
`Form.complete` makes the node, with defaults for the fields that may be left out.
-/

namespace PatternSampler

/-- The fields of a node found so far. -/
inductive Form where
  | alternate (left right : Option Node)
  | sequence (body : Option (List Node))
  | group (style : GroupStyle) (body : Option Node)
  | quantified (body quantifier : Option Node)
  | quantifier (min : Option Int64) (max : Option (Option Int64)) (greedy : Option Bool)
  | charset (body : Option (List Node)) (invert : Option Bool)
  | range (first last : Option Node)
  | literal (body : Option Char) (escaped : Option Bool)
  | numeric (form : EscapeForm) (code : Option String)
  | backReference (code : Option UInt32)
  | control (code : Option Char)
  | token (kind : Token)
  | unknown

namespace Form

/-- The form of a kind with every place free. -/
def blank : Tag → Form
  | .alternate => alternate none none
  | .sequence => sequence none
  | .group style => group style none
  | .quantified => quantified none none
  | .quantifier => quantifier none none none
  | .charset => charset none none
  | .range => range none none
  | .literal => literal none none
  | .numeric form => numeric form none
  | .backReference => backReference none
  | .control => control none
  | .token kind => token kind
  | .unknown => unknown

/-- A place filled with what was read for it, if it was free. -/
def put {α : Type} (field : String) (place : Option α) (read : Except ShapeError α) :
    Except ShapeError (Option α) :=
  match place with
  | some _ => .error (.duplicate field)
  | none => read.map some

/-- What a place holds, or its default. -/
def need {α : Type} (field : String) : Option α → Except ShapeError α
  | some a => .ok a
  | none => .error (.missing field)

/-- The form with one more member entered. The member is given by its name and by its value read as
a scalar, as a node and as a list of nodes. -/
def fill (form : Form) (field : String) (scalar : Json.Head)
    (node : Unit → Except ShapeError Node) (nodes : Unit → Except ShapeError (List Node)) :
    Except ShapeError Form :=
  match form with
  | alternate l r =>
    if field = "left" then (put field l (node ())).map (alternate · r)
    else if field = "right" then (put field r (node ())).map (alternate l ·)
    else .ok form
  | sequence b =>
    if field = "body" then (put field b (nodes ())).map sequence else .ok form
  | group style b =>
    if field = "body" then (put field b (node ())).map (group style) else .ok form
  | quantified b q =>
    if field = "body" then (put field b (node ())).map (quantified · q)
    else if field = "quantifier" then (put field q (node ())).map (quantified b ·)
    else .ok form
  | quantifier min max greedy =>
    if field = "min" then (put field min scalar.toBound).map (quantifier · max greedy)
    else if field = "max" then (put field max scalar.toUpperBound).map (quantifier min · greedy)
    else if field = "greedy" then (put field greedy scalar.toFlag).map (quantifier min max ·)
    else .ok form
  | charset b i =>
    if field = "body" then (put field b (nodes ())).map (charset · i)
    else if field = "invert" then (put field i scalar.toFlag).map (charset b ·)
    else .ok form
  | range a b =>
    if field = "start" then (put field a (node ())).map (range · b)
    else if field = "end" then (put field b (node ())).map (range a ·)
    else .ok form
  | literal c e =>
    if field = "body" then (put field c scalar.toCharacter).map (literal · e)
    else if field = "escaped" then (put field e scalar.toFlag).map (literal c ·)
    else .ok form
  | numeric f c =>
    if field = "code" then (put field c scalar.toText).map (numeric f) else .ok form
  | backReference c =>
    if field = "code" then (put field c scalar.toGroupNumber).map backReference else .ok form
  | control c =>
    if field = "code" then (put field c scalar.toCharacter).map control else .ok form
  | token _ | unknown => .ok form

/-- The node of a form, if no field is missing that has no default. -/
def complete (mark : Mark) : Form → Except ShapeError Node
  | alternate l r => do
    let l ← need "left" l
    let r ← need "right" r
    .ok (.alternate mark l r)
  | sequence b => do
    let b ← need "body" b
    .ok (.sequence mark b)
  | group style b => do
    let b ← need "body" b
    .ok (.group mark style b)
  | quantified b q => do
    let b ← need "body" b
    let q ← need "quantifier" q
    .ok (.quantified mark b q)
  | quantifier min max greedy => do
    let min ← need "min" min
    .ok (.quantifier mark { min, max := max.getD none } (greedy.getD true))
  | charset b i => do
    let b ← need "body" b
    .ok (.charset mark b (i.getD false))
  | range a b => do
    let a ← need "start" a
    let b ← need "end" b
    .ok (.range mark a b)
  | literal c e => do
    let c ← need "body" c
    .ok (.literal mark c (e.getD false))
  | numeric f c => do
    let c ← need "code" c
    .ok (.numeric mark f c)
  | backReference c => do
    let c ← need "code" c
    .ok (.backReference mark c)
  | control c => do
    let c ← need "code" c
    .ok (.control mark c)
  | token kind => .ok (.token mark kind)
  | unknown => .ok (.unknown mark)

end Form

end PatternSampler
