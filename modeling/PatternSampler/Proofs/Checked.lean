import PatternSampler.Sample.Emit

/-!
# Sampling with checks

`emit` relies on some facts that it does not look at: that the bounds of an integer are in order,
that a number is not too large for a word, that an index lies within a list, that the text of a
group starts within what has been written. Here the same computation is written down once more so
that it looks at each of them, and ends with a `Fault` where one is false. Nothing else differs, but
for the sum of a quantifier's bound with an integer, which is compared with the greatest bound
before it is made.
-/

namespace PatternSampler

/-- A fact that turns out to be false. -/
inductive Fault where
  /-- The bounds of an integer are out of order. -/
  | unordered
  /-- The difference of two words is negative. -/
  | negative
  /-- A word is too small for a number. -/
  | wide
  /-- The sum of two bounds of a quantifier cannot be written as one. -/
  | outOfBounds
  /-- There are no numbers left for groups. -/
  | numbersUsedUp
  /-- An index is not one of a list. -/
  | missing
  /-- A text would start behind the end of what has been written. -/
  | notWritten
  deriving DecidableEq, Repr

/-- A sampler that may also end with a fault. -/
abbrev Checked (α : Type) : Type := ExceptT Fault Sampler α

namespace Checked

/-- Ends with a fault unless a fact is true. -/
def require (fact : Prop) [Decidable fact] (fault : Fault) : Checked Unit :=
  if fact then pure () else throw fault

/-- A failure of the sampler itself, which is no fault. -/
def fail {α : Type} (e : SampleError) : Checked α := ExceptT.mk (.fail e)

/-- `Sampler.ofExcept`, whose errors are no faults. -/
def ofExcept {α : Type} (x : Except SampleError α) : Checked α := ExceptT.lift (Sampler.ofExcept x)

/-- The least bound that can be written. -/
def minBound : Int := -0x8000000000000000

/-- `Sampler.integer` between bounds in order. -/
def integer (least most : UInt32) : Checked UInt32 := do
  require (least ≤ most) .unordered
  Sampler.integer least most

/-- `Sampler.index` where an index is found whenever there are some and not too many. -/
def index (n : Nat) : Checked (Option Nat) :=
  if 0 < n ∧ n ≤ 0xFFFFFFFF then do
    require (n - 1 ≤ Numeral.max32) .wide
    let i ← integer 0 (UInt32.ofNat (n - 1))
    require (i.toNat < n) .missing
    pure (some i.toNat)
  else pure none

/-- `Sampler.pick` where there is an element at every index. -/
def pick {α : Type} (as : List α) : Checked (Option α) := do
  match ← index as.length with
  | none => pure none
  | some i =>
    match as[i]? with
    | some a => pure (some a)
    | none => throw .missing

/-- `Sampler.pickChar` with the checks of `pick`. -/
def pickChar (offset : UInt64) (pool : List Char) : Checked Char := do
  match ← pick pool with
  | some c => pure c
  | none => fail (.exhaustedPool offset)

/-- `Sampler.countWithin` between words. -/
def countWithin (offset : UInt64) (least most : Int) : Checked Nat :=
  if least ≤ most ∧ most ≤ Sampler.maxCount then do
    require (0 ≤ least ∧ least ≤ Sampler.maxCount ∧ 0 ≤ most ∧ most ≤ Sampler.maxCount) .wide
    let n ← integer (UInt32.ofNat least.toNat) (UInt32.ofNat most.toNat)
    pure n.toNat
  else fail (.invalidBounds offset least most)

/-- `Sampler.count` where a sum is only made if it can be written as a bound. -/
def count (cfg : Config) (quantifier : Node) : Checked Nat :=
  match quantifier with
  | .quantifier mark bounds _ =>
    let least := max bounds.min.toInt 0
    match bounds.max with
    | some most => countWithin mark.offset least most.toInt
    | none => do
      let extra ← integer cfg.leastExtra cfg.mostExtra
      if Sampler.maxBound - extra.toNat < least then
        fail (.invalidBounds mark.offset least Sampler.maxBound)
      else
        let most := least + extra.toNat
        require (minBound ≤ most ∧ most ≤ Sampler.maxBound) .outOfBounds
        Sampler.tell (.capped mark.offset most)
        countWithin mark.offset least most
  | other => fail (.notAQuantifier other.offset other.tag)

/-- `Sampler.between` where the surrogates are left out and put back without running over. -/
def between (first last : Char) : Checked UInt32 :=
  if lastSurrogate < first.val ∨ last.val < firstSurrogate then integer first.val last.val
  else do
    require (surrogateCount ≤ last.val) .negative
    let value ← integer first.val (last.val - surrogateCount)
    if firstSurrogate ≤ value then
      require (value.toNat + surrogateCount.toNat ≤ Numeral.max32) .wide
      pure (value + surrogateCount)
    else pure value

/-- `Sampler.enter` where a group is only added if the number after its own is a word. -/
def enter (path : Path) (offset : UInt64) (captures : Captures Path) :
    Checked (Nat × Captures Path) :=
  match captures.number? path with
  | some number => do
    Sampler.tell (.enter path offset number false)
    pure (number, captures)
  | none => do
    require (captures.nextNumber + 1 ≤ Numeral.max32) .numbersUsedUp
    Sampler.tell (.enter path offset captures.nextNumber true)
    pure (captures.nextNumber, captures.add path)

/-- `Sampler.leave` where the text starts within what has been written. -/
def leave (path : Path) (number start : Nat) (p : Page) : Checked Page := do
  require (start ≤ p.written.size) .notWritten
  Sampler.leave path number start p

/-- `Sampler.endpoint` with checks. -/
def endpoint (offset : UInt64) (write : Page → Checked Page) (captures : Captures Path) :
    Checked (Char × Captures Path) := do
  let p ← write { captures }
  match p.written.toList with
  | [c] => pure (c, p.captures)
  | _ => fail (.invalidRangeEndpoint offset p.text)

/-- `Sampler.ends` with checks. -/
def ends (offset : UInt64) (first last : Captures Path → Checked (Char × Captures Path))
    (captures : Captures Path) : Checked (Char × Char × Captures Path) := do
  let (a, captures) ← first captures
  let (b, captures) ← last captures
  if b < a then fail (.backwardsRange offset a b) else pure (a, b, captures)

/-- `Sampler.iterate` with checks. -/
def iterate {α : Type} (step : α → Checked α) : Nat → α → Checked α
  | 0, a => pure a
  | n + 1, a => do
    let a ← step a
    iterate step n a

/-- `Sampler.token` with checks. -/
def token (offset : UInt64) (kind : Token) (p : Page) : Checked Page :=
  match kind with
  | .start | .finish | .backspace | .wordBoundary | .nonWordBoundary | .formFeed
  | .carriageReturn | .tab | .verticalTab | .nullCharacter => pure p
  | .anyCharacter => return p.push (← Sampler.character)
  | .lineFeed => pure (p.push '\n')
  | .digit => return p.push (← pickChar offset Alphabet.number)
  | .nonDigit => return p.push (← pickChar offset Alphabet.nonDigit)
  | .whiteSpace => return p.push (← pickChar offset Alphabet.space)
  | .nonWhiteSpace | .word => return p.push (← pickChar offset Alphabet.alnum)
  | .nonWord => return p.push (← pickChar offset Alphabet.other)

mutual

/-- `PatternSampler.emit` with checks. -/
def emit (cfg : Config) (node : Node) (path : Path) (depth : Nat) (p : Page) : Checked Page :=
  if cfg.maxDepth ≤ depth then fail (.tooDeep node.offset cfg.maxDepth)
  else do
    Sampler.tell (.visit path)
    match node with
    | .alternate _ l r =>
      if ← Sampler.boolean then emit cfg l (0 :: path) (depth + 1) p
      else emit cfg r (1 :: path) (depth + 1) p
    | .sequence _ body => emitAll cfg body path 0 (depth + 1) p
    | .group m .capturing body =>
      let start := p.written.size
      let (number, captures) ← enter path m.offset p.captures
      let inside ← emit cfg body (0 :: path) (depth + 1) { p with captures }
      leave path number start inside
    | .group _ .notAhead _ => pure p
    | .group _ _ body => emit cfg body (0 :: path) (depth + 1) p
    | .quantified _ body quantifier =>
      let n ← count cfg quantifier
      iterate (emit cfg body (0 :: path) (depth + 1)) n p
    | .quantifier .. => pure p
    | .charset m body true =>
      let (pool, captures) ← strike cfg body path 0 (depth + 1) Alphabet.printable p.captures
      let c ← pickChar m.offset pool
      pure ({ p with captures }.push c)
    | .charset m body false =>
      match ← index body.length with
      | some i => emitNth cfg body path 0 i (depth + 1) p
      | none => fail (.emptyCharset m.offset)
    | .range m first last =>
      let (a, b, captures) ← ends m.offset
        (endpoint first.offset (emit cfg first (0 :: path) (depth + 1)))
        (endpoint last.offset (emit cfg last (1 :: path) (depth + 1))) p.captures
      let value ← between a b
      let c ← ofExcept (scalar m.offset value)
      pure ({ p with captures }.push c)
    | .literal m c isEscaped => pure (if isEscaped then p.push c else p.append m.text)
    | .numeric m form code =>
      let c ← ofExcept (escaped m.offset form code)
      pure (p.push c)
    | .backReference _ code =>
      let text := p.captures.kept code.toNat
      Sampler.tell (.refer code.toNat text)
      pure (p.append text)
    | .control m code =>
      match Alphabet.control? code with
      | some c => pure (p.push c)
      | none => fail (.unknownControl m.offset code)
    | .token m kind => token m.offset kind p
    | .unknown m => pure (p.append m.text)

/-- `PatternSampler.emitAll` with checks. -/
def emitAll (cfg : Config) (nodes : List Node) (path : Path) (place depth : Nat) (p : Page) :
    Checked Page :=
  match nodes with
  | [] => pure p
  | n :: ns => do
    let p ← emit cfg n (place :: path) depth p
    emitAll cfg ns path (place + 1) depth p

/-- `PatternSampler.emitNth` where there is a node at every index. -/
def emitNth (cfg : Config) (nodes : List Node) (path : Path) (place i depth : Nat) (p : Page) :
    Checked Page :=
  match nodes, i with
  | [], _ => throw .missing
  | n :: _, 0 => emit cfg n (place :: path) depth p
  | _ :: ns, i + 1 => emitNth cfg ns path (place + 1) i depth p

/-- `PatternSampler.strike` with checks. -/
def strike (cfg : Config) (entries : List Node) (path : Path) (place depth : Nat)
    (pool : List Char) (captures : Captures Path) : Checked (List Char × Captures Path) :=
  match entries with
  | [] => pure (pool, captures)
  | .literal _ c _ :: rest =>
    strike cfg rest path (place + 1) depth (pool.filter (· ≠ c)) captures
  | .range m first last :: rest => do
    Sampler.tell (.visit (place :: path))
    let (a, b, captures) ← ends m.offset
      (endpoint first.offset (emit cfg first (0 :: place :: path) depth))
      (endpoint last.offset (emit cfg last (1 :: place :: path) depth)) captures
    let pool := pool.filter fun c => ¬ (a ≤ c ∧ c ≤ b)
    strike cfg rest path (place + 1) depth (withoutShorthand m.text pool) captures
  | entry :: rest =>
    strike cfg rest path (place + 1) depth (withoutShorthand entry.text pool) captures

end

/-- `PatternSampler.sample` with checks. -/
def sample (cfg : Config) (node : Node) : Checked String := do
  let p ← emit cfg node [] 0 { }
  Sampler.tell (.complete p.written.size node.tag node.offset)
  pure p.text

end Checked

end PatternSampler
