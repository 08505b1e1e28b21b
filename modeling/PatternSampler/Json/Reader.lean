import PatternSampler.Json.Number
import PatternSampler.Json.Text

/-!
# Reading JSON

`value` reads one value from the front of a text and gives the text after it. It is told how many
brackets may still be opened inside one another, and how many items a container has at most. Arrays
and objects are read by loops over their items and members; the loop over members is general in what
it does with each of them, so that a reader that knows what it is looking for can act on a member as
soon as it has seen its name. `ofText` reads a whole document. Every item takes a character, so the
length of the text is more than enough items for each of its containers.
-/

namespace PatternSampler.Json

/-- The blanks that may stand between the parts of a document. -/
def isBlank (c : Char) : Bool := c = ' ' || c = '\n' || c = '\t' || c = '\r'

/-- The text after its leading blanks. -/
def skipBlanks (cs : List Char) : List Char := cs.dropWhile isBlank

/-- The brackets of a document that may be open at once. -/
def maxNesting : Nat := 127

/-- The text after the given word. -/
def word : List Char → List Char → Except Fault (List Char)
  | [], cs => .ok cs
  | _ :: _, [] => .error (.cutShort .value)
  | w :: ws, c :: cs => if c = w then word ws cs else .error .expectedIdent

/-- The scalar that starts with the given character. -/
def scalar (c : Char) (rest : List Char) : Except Fault (Json × List Char) :=
  if c = '"' then (Text.body rest).map fun (s, rest) => (.string (String.ofList s), rest)
  else if c = 'n' then (word "ull".toList rest).map fun rest => (.null, rest)
  else if c = 't' then (word "rue".toList rest).map fun rest => (.bool true, rest)
  else if c = 'f' then (word "alse".toList rest).map fun rest => (.bool false, rest)
  else if c = '-' ∨ Number.isDigit c then Number.read c rest
  else .error .expectedValue

/-- The name of the next member of an object, or nothing at the closing brace. -/
def nextName (isFirst : Bool) : Reader (Option String) := fun cs =>
  let name : Reader (Option String) := fun rest =>
    (Text.body rest).map fun (s, rest) => (some (String.ofList s), rest)
  match skipBlanks cs with
  | [] => .error (.cutShort .object)
  | c :: rest =>
    if c = '\x7d' then .ok (none, rest)
    else if isFirst then if c = '"' then name rest else .error .keyNotString
    else if c = ',' then
      match skipBlanks rest with
      | [] => .error (.cutShort .value)
      | c :: rest =>
        if c = '"' then name rest
        else if c = '\x7d' then .error .trailingComma
        else .error .keyNotString
    else .error .expectedCommaOrBrace

/-- The text after the colon that follows a name. -/
def colon (cs : List Char) : Except Fault (List Char) :=
  match skipBlanks cs with
  | [] => .error (.cutShort .object)
  | c :: rest => if c = ':' then .ok rest else .error .expectedColon

/-- Whether another item of an array follows, and the text from there; at the closing bracket the
text after it. -/
def nextItem (isFirst : Bool) : Reader Bool := fun cs =>
  match skipBlanks cs with
  | [] => .error (.cutShort .list)
  | c :: rest =>
    if c = ']' then .ok (false, rest)
    else if isFirst then .ok (true, c :: rest)
    else if c = ',' then
      match skipBlanks rest with
      | [] => .error (.cutShort .value)
      | c :: rest => if c = ']' then .error .trailingComma else .ok (true, c :: rest)
    else .error .expectedCommaOrBracket

/-- Reads the rest of an array of fewer than `fuel` items. -/
def itemsFrom (item : Reader Json) : (fuel : Nat) → (isFirst : Bool) → Reader (List Json)
  | 0, _, _ => .error (.cutShort .list)
  | fuel + 1, isFirst, cs => do
    let (more, cs) ← nextItem isFirst cs
    if more then
      let (j, cs) ← item cs
      let (js, cs) ← itemsFrom item fuel false cs
      .ok (j :: js, cs)
    else .ok ([], cs)

/-- Folds `step` over the rest of an object of fewer than `fuel` members. `step` is handed what has
been gathered so far, a name and the text after it, and reads on to the end of that member. -/
def membersFrom {σ ε : Type} (fault : Fault → ε)
    (step : σ → String → List Char → Except ε (σ × List Char)) :
    (fuel : Nat) → (isFirst : Bool) → σ → List Char → Except ε (σ × List Char)
  | 0, _, _, _ => .error (fault (.cutShort .object))
  | fuel + 1, isFirst, s, cs => do
    match ← (nextName isFirst cs).mapError fault with
    | (none, cs) => .ok (s, cs)
    | (some name, cs) =>
      let (s, cs) ← step s name cs
      membersFrom fault step fuel false s cs

/-- The value at the front of a text, in which at most `depth` brackets are open at once and each
container has fewer than `fuel` items. -/
def value (fuel depth : Nat) : Reader Json := fun cs =>
  match skipBlanks cs with
  | [] => .error (.cutShort .value)
  | c :: rest =>
    if c = '[' then
      match depth with
      | 0 => .error .tooNested
      | depth + 1 => do
        let (js, rest) ← itemsFrom (value fuel depth) fuel true rest
        .ok (.array js, rest)
    else if c = '\x7b' then
      match depth with
      | 0 => .error .tooNested
      | depth + 1 => do
        let (ms, rest) ← membersFrom id
          (fun ms name rest => do
            let rest ← colon rest
            let (j, rest) ← value fuel depth rest
            .ok ((name, j) :: ms, rest)) fuel true [] rest
        .ok (.object ms.reverse, rest)
    else scalar c rest

/-- The head of the value at the front of a text. A scalar is read to its end, a container only up
to its bracket. -/
def headOf : Reader Head := fun cs =>
  match skipBlanks cs with
  | [] => .error (.cutShort .value)
  | c :: rest =>
    if c = '[' then .ok (.array, rest)
    else if c = '\x7b' then .ok (.object, rest)
    else (scalar c rest).map fun (j, rest) => (j.head, rest)

/-- Only blanks may follow a document. -/
def ending (cs : List Char) : Except Fault Unit :=
  if (skipBlanks cs).isEmpty then .ok () else .error .trailingCharacters

/-- The value that a text holds. -/
def ofText (text : String) : Except Fault Json := do
  let cs := text.toList
  let (j, rest) ← value (cs.length + 1) maxNesting cs
  ending rest
  .ok j

end PatternSampler.Json
