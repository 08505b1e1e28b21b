/-!
# Pattern trees

A pattern tree is the parsed form of a regular expression. Every node carries a `Mark`, which says
where in the pattern it was read and from which text. `Node.decEq` compares two trees down to their
marks, and `Node.beq_iff_eq` shows that its Boolean form decides equality.
-/

namespace PatternSampler

/-- Where a node stands in its pattern, and the text it was read from. -/
structure Mark where
  offset : UInt64 := 0
  text : String := ""
  deriving DecidableEq, Repr, Inhabited

/-- What brackets around a subpattern ask for: to remember what it gave, nothing at all, or to look
ahead, where the subpattern has to follow or must not follow. -/
inductive GroupStyle where
  | capturing
  | plain
  | ahead
  | notAhead
  deriving DecidableEq, Repr

/-- How the digits of a numeric escape are introduced. -/
inductive EscapeForm where
  | unicode
  | hex
  | octal
  deriving DecidableEq, Repr

/-- The leaves that carry nothing but their mark. -/
inductive Token where
  | start
  | finish
  | anyCharacter
  | backspace
  | wordBoundary
  | nonWordBoundary
  | digit
  | nonDigit
  | formFeed
  | lineFeed
  | carriageReturn
  | whiteSpace
  | nonWhiteSpace
  | tab
  | verticalTab
  | word
  | nonWord
  | nullCharacter
  deriving DecidableEq, Repr

/-- How often a subpattern repeats: at least `min` times, and at most `max` times if there is an
upper bound. The bounds are as written, so they may be negative or the wrong way round. -/
structure Bounds where
  min : Int64
  max : Option Int64 := none
  deriving DecidableEq, Repr

/-- A node of a pattern tree. -/
inductive Node where
  /-- One of two branches. -/
  | alternate (mark : Mark) (left right : Node)
  /-- Subpatterns one after the other. -/
  | sequence (mark : Mark) (body : List Node)
  /-- A subpattern in brackets. -/
  | group (mark : Mark) (style : GroupStyle) (body : Node)
  /-- A repeated subpattern, with the node that says how often. -/
  | quantified (mark : Mark) (body quantifier : Node)
  /-- How often a subpattern repeats. Whether it prefers more or fewer changes nothing that it
  could match. -/
  | quantifier (mark : Mark) (bounds : Bounds) (greedy : Bool)
  /-- A set of characters in square brackets, given by what it holds or by what it leaves out. -/
  | charset (mark : Mark) (body : List Node) (invert : Bool)
  /-- The characters between two others, ends included. -/
  | range (mark : Mark) (first last : Node)
  /-- One character, with whether a backslash stood before it. -/
  | literal (mark : Mark) (body : Char) (escaped : Bool)
  /-- A character given by its code point in digits. -/
  | numeric (mark : Mark) (form : EscapeForm) (code : String)
  /-- The text that an earlier group captured. -/
  | backReference (mark : Mark) (code : UInt32)
  /-- A control character, given by the symbol it shares its low bits with. -/
  | control (mark : Mark) (code : Char)
  /-- A leaf without content. -/
  | token (mark : Mark) (kind : Token)
  /-- A node of a kind that is not known here, kept for its text. -/
  | unknown (mark : Mark)
  deriving Repr, Inhabited

namespace Node

/-- The mark of a node. -/
def mark : Node → Mark
  | alternate m _ _ | sequence m _ | group m _ _ | quantified m _ _ | quantifier m _ _
  | charset m _ _ | range m _ _ | literal m _ _ | numeric m _ _ | backReference m _
  | control m _ | token m _ | unknown m => m

/-- Where a node stands in its pattern. -/
def offset (n : Node) : UInt64 := n.mark.offset

/-- The text a node was read from. -/
def text (n : Node) : String := n.mark.text

/-- The node with another mark. -/
def withMark (n : Node) (m : Mark) : Node :=
  match n with
  | alternate _ l r => alternate m l r
  | sequence _ b => sequence m b
  | group _ s b => group m s b
  | quantified _ b q => quantified m b q
  | quantifier _ b g => quantifier m b g
  | charset _ b i => charset m b i
  | range _ a b => range m a b
  | literal _ c e => literal m c e
  | numeric _ f c => numeric m f c
  | backReference _ c => backReference m c
  | control _ c => control m c
  | token _ k => token m k
  | unknown _ => unknown m

/-- The node standing elsewhere. -/
def withOffset (n : Node) (offset : UInt64) : Node :=
  n.withMark { n.mark with offset }

/-- The node read from another text. -/
def withText (n : Node) (text : String) : Node :=
  n.withMark { n.mark with text }

/-- A mark that is put on a node is the one found there. -/
@[simp] theorem mark_withMark (n : Node) (m : Mark) : (n.withMark m).mark = m := by
  cases n <;> rfl

/-- A node that is given its own mark does not change. -/
@[simp] theorem withMark_mark (n : Node) : n.withMark n.mark = n := by
  cases n <;> rfl

mutual

/-- Two trees are the same, node by node and mark by mark. -/
def beq : Node → Node → Bool
  | alternate m l r, alternate m' l' r' => m == m' && l.beq l' && r.beq r'
  | sequence m b, sequence m' b' => m == m' && beqList b b'
  | group m s b, group m' s' b' => m == m' && s == s' && b.beq b'
  | quantified m b q, quantified m' b' q' => m == m' && b.beq b' && q.beq q'
  | quantifier m b g, quantifier m' b' g' => m == m' && b == b' && g == g'
  | charset m b i, charset m' b' i' => m == m' && beqList b b' && i == i'
  | range m a b, range m' a' b' => m == m' && a.beq a' && b.beq b'
  | literal m c e, literal m' c' e' => m == m' && c == c' && e == e'
  | numeric m f c, numeric m' f' c' => m == m' && f == f' && c == c'
  | backReference m c, backReference m' c' => m == m' && c == c'
  | control m c, control m' c' => m == m' && c == c'
  | token m k, token m' k' => m == m' && k == k'
  | unknown m, unknown m' => m == m'
  | _, _ => false

/-- Two lists hold the same trees in the same order. -/
def beqList : List Node → List Node → Bool
  | [], [] => true
  | n :: ns, n' :: ns' => n.beq n' && beqList ns ns'
  | _, _ => false

end

mutual

/-- The comparison of nodes holds of equal nodes and of no others. -/
theorem beq_iff_eq : (a b : Node) → (a.beq b = true ↔ a = b)
  | alternate _ l r, b => by
    cases b <;> simp [beq, beq_iff_eq l, beq_iff_eq r, and_assoc]
  | sequence _ xs, b => by cases b <;> simp [beq, beqList_iff_eq xs]
  | group _ _ n, b => by cases b <;> simp [beq, beq_iff_eq n, and_assoc]
  | quantified _ n q, b => by
    cases b <;> simp [beq, beq_iff_eq n, beq_iff_eq q, and_assoc]
  | quantifier _ _ _, b => by cases b <;> simp [beq, and_assoc]
  | charset _ xs _, b => by cases b <;> simp [beq, beqList_iff_eq xs, and_assoc]
  | range _ n n', b => by
    cases b <;> simp [beq, beq_iff_eq n, beq_iff_eq n', and_assoc]
  | literal _ _ _, b => by cases b <;> simp [beq, and_assoc]
  | numeric _ _ _, b => by cases b <;> simp [beq, and_assoc]
  | backReference _ _, b => by cases b <;> simp [beq]
  | control _ _, b => by cases b <;> simp [beq]
  | token _ _, b => by cases b <;> simp [beq]
  | unknown _, b => by cases b <;> simp [beq]

/-- The comparison of lists of nodes holds of equal lists and of no others. -/
theorem beqList_iff_eq : (as bs : List Node) → (beqList as bs = true ↔ as = bs)
  | [], bs => by cases bs <;> simp [beqList]
  | a :: as, bs => by cases bs <;> simp [beqList, beq_iff_eq a, beqList_iff_eq as]

end

instance : DecidableEq Node := fun a b =>
  decidable_of_iff (a.beq b = true) (beq_iff_eq a b)

end Node

end PatternSampler
