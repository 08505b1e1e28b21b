import PatternSampler.Alphabet
import PatternSampler.Captures
import PatternSampler.Sample.Repetition
import PatternSampler.Sample.Scalar

/-!
# Sampling a pattern

`emit` walks through a pattern tree and adds the text of each node to the end of what has been
written. A group's text is what has been added between entering and leaving it. The ends of a range
are written on a page of their own, but share the captured texts. `sample` starts with nothing
written and nothing captured.
-/

namespace PatternSampler

/-- What has been written and captured so far. -/
structure Page where
  written : Array Char := #[]
  captures : Captures Path := { }
  deriving DecidableEq, Repr

namespace Page

/-- The page with a character added. -/
def push (p : Page) (c : Char) : Page := { p with written := p.written.push c }

/-- The page with a text added. -/
def append (p : Page) (s : String) : Page := { p with written := p.written ++ s.toList.toArray }

/-- What has been written from a place on. -/
def since (p : Page) (start : Nat) : String := String.ofList (p.written.extract start).toList

/-- All that has been written. -/
def text (p : Page) : String := String.ofList p.written.toList

end Page

namespace Sampler

/-- Asks for a character of a pool. -/
def pickChar (offset : UInt64) (pool : List Char) : Sampler Char := do
  match ← pick pool with
  | some c => pure c
  | none => fail (.exhaustedPool offset)

/-- Enters a capturing group, and gives its number. -/
def enter (path : Path) (offset : UInt64) (captures : Captures Path) :
    Sampler (Nat × Captures Path) :=
  match captures.number? path with
  | some number => do
    tell (.enter path offset number false)
    pure (number, captures)
  | none => do
    tell (.enter path offset captures.nextNumber true)
    pure (captures.nextNumber, captures.add path)

/-- Leaves a capturing group that was entered when `start` characters had been written. -/
def leave (path : Path) (number start : Nat) (p : Page) : Sampler Page := do
  tell (.leave path (p.since start))
  pure { p with captures := p.captures.keep number (p.since start) }

/-- The one character that an end of a range writes on a page of its own. -/
def endpoint (offset : UInt64) (write : Page → Sampler Page) (captures : Captures Path) :
    Sampler (Char × Captures Path) := do
  let p ← write { captures }
  match p.written.toList with
  | [c] => pure (c, p.captures)
  | _ => fail (.invalidRangeEndpoint offset p.text)

/-- The ends of the range at the given offset, which are in order. What is remembered of the groups
is handed from the first end to the last. -/
def ends {μ : Type} (offset : UInt64) (first last : μ → Sampler (Char × μ)) (remembered : μ) :
    Sampler (Char × Char × μ) := do
  let (a, remembered) ← first remembered
  let (b, remembered) ← last remembered
  if b < a then fail (.backwardsRange offset a b) else pure (a, b, remembered)

/-- What a leaf without content adds. Anchors, boundaries and some escapes add nothing. -/
def token (offset : UInt64) (kind : Token) (p : Page) : Sampler Page :=
  match kind with
  | .start | .finish | .backspace | .wordBoundary | .nonWordBoundary | .formFeed
  | .carriageReturn | .tab | .verticalTab | .nullCharacter => pure p
  | .anyCharacter => return p.push (← character)
  | .lineFeed => pure (p.push '\n')
  | .digit => return p.push (← pickChar offset Alphabet.number)
  | .nonDigit => return p.push (← pickChar offset Alphabet.nonDigit)
  | .whiteSpace => return p.push (← pickChar offset Alphabet.space)
  | .nonWhiteSpace | .word => return p.push (← pickChar offset Alphabet.alnum)
  | .nonWord => return p.push (← pickChar offset Alphabet.other)

end Sampler

/-- A pool without the characters of the class that a text spells, if it spells one. -/
def withoutShorthand (text : String) (pool : List Char) : List Char :=
  match Alphabet.Shorthand.ofText? text with
  | some shorthand => pool.filter (· ∉ shorthand.members)
  | none => pool

open Sampler in
mutual

/-- Adds the text of a node. `depth` is the number of nodes above it. -/
def emit (cfg : Config) (node : Node) (path : Path) (depth : Nat) (p : Page) : Sampler Page :=
  if cfg.maxDepth ≤ depth then fail (.tooDeep node.offset cfg.maxDepth)
  else note (.visit path) fun _ =>
    match node with
    | .alternate _ l r => do
      if ← boolean then emit cfg l (0 :: path) (depth + 1) p
      else emit cfg r (1 :: path) (depth + 1) p
    | .sequence _ body => emitAll cfg body path 0 (depth + 1) p
    | .group m .capturing body => do
      let start := p.written.size
      let (number, captures) ← enter path m.offset p.captures
      let inside ← emit cfg body (0 :: path) (depth + 1) { p with captures }
      leave path number start inside
    | .group _ .notAhead _ => pure p
    | .group _ _ body => emit cfg body (0 :: path) (depth + 1) p
    | .quantified _ body quantifier => do
      let n ← count cfg quantifier
      iterate (emit cfg body (0 :: path) (depth + 1)) n p
    | .quantifier .. => pure p
    | .charset m body true => do
      let (pool, captures) ← strike cfg body path 0 (depth + 1) Alphabet.printable p.captures
      let c ← pickChar m.offset pool
      pure ({ p with captures }.push c)
    | .charset m body false => do
      match ← index body.length with
      | some i => emitNth cfg m.offset body path 0 i (depth + 1) p
      | none => fail (.emptyCharset m.offset)
    | .range m first last => do
      let (a, b, captures) ← ends m.offset
        (endpoint first.offset (emit cfg first (0 :: path) (depth + 1)))
        (endpoint last.offset (emit cfg last (1 :: path) (depth + 1))) p.captures
      let value ← between a b
      let c ← ofExcept (scalar m.offset value)
      pure ({ p with captures }.push c)
    | .literal m c isEscaped => pure (if isEscaped then p.push c else p.append m.text)
    | .numeric m form code => do
      let c ← ofExcept (escaped m.offset form code)
      pure (p.push c)
    | .backReference _ code => do
      let text := p.captures.kept code.toNat
      tell (.refer code.toNat text)
      pure (p.append text)
    | .control m code =>
      match Alphabet.control? code with
      | some c => pure (p.push c)
      | none => fail (.unknownControl m.offset code)
    | .token m kind => token m.offset kind p
    | .unknown m => pure (p.append m.text)

/-- Adds the texts of some nodes, the first of which has the given place among its siblings. -/
def emitAll (cfg : Config) (nodes : List Node) (path : Path) (place depth : Nat) (p : Page) :
    Sampler Page :=
  match nodes with
  | [] => pure p
  | n :: ns => do
    let p ← emit cfg n (place :: path) depth p
    emitAll cfg ns path (place + 1) depth p

/-- Adds the text of one of the members of the set at the given offset, the one `i` places after
the first of the given nodes. -/
def emitNth (cfg : Config) (offset : UInt64) (nodes : List Node) (path : Path)
    (place i depth : Nat) (p : Page) : Sampler Page :=
  match nodes, i with
  | [], _ => fail (.emptyCharset offset)
  | n :: _, 0 => emit cfg n (place :: path) depth p
  | _ :: ns, i + 1 => emitNth cfg offset ns path (place + 1) i depth p

/-- A pool without the characters that some entries stand for. A literal strikes out its character,
a range the characters between its ends, and any entry but a literal the class that its text
spells. -/
def strike (cfg : Config) (entries : List Node) (path : Path) (place depth : Nat)
    (pool : List Char) (captures : Captures Path) : Sampler (List Char × Captures Path) :=
  match entries with
  | [] => pure (pool, captures)
  | .literal _ c _ :: rest =>
    strike cfg rest path (place + 1) depth (pool.filter (· ≠ c)) captures
  | .range m first last :: rest =>
    note (.visit (place :: path)) fun _ => do
      let (a, b, captures) ← ends m.offset
        (endpoint first.offset (emit cfg first (0 :: place :: path) depth))
        (endpoint last.offset (emit cfg last (1 :: place :: path) depth)) captures
      let pool := pool.filter fun c => ¬ (a ≤ c ∧ c ≤ b)
      strike cfg rest path (place + 1) depth (withoutShorthand m.text pool) captures
  | entry :: rest =>
    strike cfg rest path (place + 1) depth (withoutShorthand entry.text pool) captures

end

open Sampler in
/-- A sample of a pattern. -/
def sample (cfg : Config) (node : Node) : Sampler String := do
  let p ← emit cfg node [] 0 { }
  tell (.complete p.written.size node.tag node.offset)
  pure p.text

end PatternSampler
