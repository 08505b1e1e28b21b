import PatternSampler.Pattern.Node

/-!
# Tags

A tag names the kind of a node. The known tags come in a fixed order, so a tag can be given by its
name or by its place in that order; every other name and every other place is the tag of an
unknown node.
-/

namespace PatternSampler

/-- The kind of a node. -/
inductive Tag where
  | alternate
  | sequence
  | group (style : GroupStyle)
  | quantified
  | quantifier
  | charset
  | range
  | literal
  | numeric (form : EscapeForm)
  | backReference
  | control
  | token (kind : Token)
  | unknown
  deriving DecidableEq, Repr

/-- The name of a leaf without content. -/
def Token.name : Token → String
  | .start => "start"
  | .finish => "end"
  | .anyCharacter => "any-character"
  | .backspace => "backspace"
  | .wordBoundary => "word-boundary"
  | .nonWordBoundary => "non-word-boundary"
  | .digit => "digit"
  | .nonDigit => "non-digit"
  | .formFeed => "form-feed"
  | .lineFeed => "line-feed"
  | .carriageReturn => "carriage-return"
  | .whiteSpace => "white-space"
  | .nonWhiteSpace => "non-white-space"
  | .tab => "tab"
  | .verticalTab => "vertical-tab"
  | .word => "word"
  | .nonWord => "non-word"
  | .nullCharacter => "null-character"

namespace Tag

/-- The name of a tag. -/
def name : Tag → String
  | alternate => "alternate"
  | sequence => "match"
  | group .capturing => "capture-group"
  | group .plain => "non-capture-group"
  | group .ahead => "positive-lookahead"
  | group .notAhead => "negative-lookahead"
  | quantified => "quantified"
  | quantifier => "quantifier"
  | charset => "charset"
  | range => "range"
  | literal => "literal"
  | numeric .unicode => "unicode"
  | numeric .hex => "hex"
  | numeric .octal => "octal"
  | backReference => "back-reference"
  | control => "control-character"
  | token k => k.name
  | unknown => "unknown"

/-- The known tags, in order. -/
def known : List Tag :=
  [alternate, sequence, group .capturing, group .plain, group .ahead, group .notAhead, quantified,
    quantifier, charset, range, literal, numeric .unicode, numeric .hex, numeric .octal,
    backReference, control, token .start, token .finish, token .anyCharacter, token .backspace,
    token .wordBoundary, token .nonWordBoundary, token .digit, token .nonDigit, token .formFeed,
    token .lineFeed, token .carriageReturn, token .whiteSpace, token .nonWhiteSpace, token .tab,
    token .verticalTab, token .word, token .nonWord, token .nullCharacter]

/-- The tag of a name. -/
def ofName (s : String) : Tag :=
  (known.find? (·.name == s)).getD unknown

/-- The tag at a place in the order. -/
def ofIndex (i : Nat) : Tag :=
  known[i]?.getD unknown

/-- A name leads back to its tag. -/
theorem ofName_name (t : Tag) : ofName t.name = t := by
  rcases t with _ | _ | s | _ | _ | _ | _ | _ | f | _ | _ | k | _
  case group => cases s <;> decide
  case numeric => cases f <;> decide
  case token => cases k <;> decide
  all_goals decide

end Tag

/-- The kind of a node. -/
def Node.tag : Node → Tag
  | .alternate .. => .alternate
  | .sequence .. => .sequence
  | .group _ style _ => .group style
  | .quantified .. => .quantified
  | .quantifier .. => .quantifier
  | .charset .. => .charset
  | .range .. => .range
  | .literal .. => .literal
  | .numeric _ form _ => .numeric form
  | .backReference .. => .backReference
  | .control .. => .control
  | .token _ kind => .token kind
  | .unknown .. => .unknown

/-- The name of a node's kind. -/
def Node.typeName (n : Node) : String := n.tag.name

end PatternSampler
