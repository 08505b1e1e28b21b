import PatternSampler.Pattern.Node

/-!
# Building pattern trees

Each function here makes a node at offset 0 whose text is the source text of what it stands for,
put together from the texts of its parts.
-/

namespace PatternSampler.Node

/-- The texts of some nodes, one after the other. -/
def texts (ns : List Node) : String :=
  String.join (ns.map Node.text)

/-- A character that stands for itself. -/
def ofChar (c : Char) : Node :=
  .literal { text := c.toString } c false

/-- A character behind a backslash. -/
def ofEscapedChar (c : Char) : Node :=
  .literal { text := "\\" ++ c.toString } c true

/-- Subpatterns one after the other. -/
def ofSequence (body : List Node) : Node :=
  .sequence { text := texts body } body

/-- Either of two subpatterns. -/
def either (left right : Node) : Node :=
  .alternate { text := left.text ++ "|" ++ right.text } left right

/-- A capturing group. -/
def capture (body : Node) : Node :=
  .group { text := "(" ++ body.text ++ ")" } .capturing body

/-- A group that only holds its body together. -/
def bracket (body : Node) : Node :=
  .group { text := "(?:" ++ body.text ++ ")" } .plain body

/-- The spelling of repetition bounds: one number for an exact count, and nothing after the comma
where there is no upper bound. -/
def boundsText (min : Int64) : Option Int64 → String
  | none => "\x7b" ++ toString min.toInt ++ ",\x7d"
  | some max =>
    if max = min then "\x7b" ++ toString min.toInt ++ "\x7d"
    else "\x7b" ++ toString min.toInt ++ "," ++ toString max.toInt ++ "\x7d"

/-- The bounds of a greedy repetition. -/
def times (min : Int64) (max : Option Int64) : Node :=
  .quantifier { text := boundsText min max } { min, max } true

/-- A repeated subpattern. -/
def repeated (body quantifier : Node) : Node :=
  .quantified { text := body.text ++ quantifier.text } body quantifier

/-- A set of characters, or its complement. -/
def oneOf (body : List Node) (invert : Bool) : Node :=
  .charset { text := (if invert then "[^" else "[") ++ texts body ++ "]" } body invert

/-- The characters from `first` to `last`. -/
def span (first last : Char) : Node :=
  .range { text := first.toString ++ "-" ++ last.toString } (ofChar first) (ofChar last)

/-- The text of the capturing group with number `code`. -/
def backTo (code : UInt32) : Node :=
  .backReference { text := "\\" ++ toString code.toNat } code

/-- The spelling of a leaf without content. -/
def tokenText : Token → String
  | .start => "^"
  | .finish => "$"
  | .anyCharacter => "."
  | .backspace => "[\\b]"
  | .wordBoundary => "\\b"
  | .nonWordBoundary => "\\B"
  | .digit => "\\d"
  | .nonDigit => "\\D"
  | .formFeed => "\\f"
  | .lineFeed => "\\n"
  | .carriageReturn => "\\r"
  | .whiteSpace => "\\s"
  | .nonWhiteSpace => "\\S"
  | .tab => "\\t"
  | .verticalTab => "\\v"
  | .word => "\\w"
  | .nonWord => "\\W"
  | .nullCharacter => "\\0"

/-- A node with the mark of its spelling: the usual one for a leaf without content, and none for
any other kind. -/
def spelled (n : Node) : Node :=
  match n with
  | .token _ kind => .token { text := tokenText kind } kind
  | n => n.withMark { }

end PatternSampler.Node
