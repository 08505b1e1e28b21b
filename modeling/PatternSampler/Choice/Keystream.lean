import PatternSampler.Choice.Uniform

/-!
# Keystreams

The words behind a seed are the keystream of ChaCha with twelve rounds. A state of the cipher is
four rows of four words; a round works on all four columns at once, and every second round on the
diagonals, which become columns when the rows are rotated. A block is the state after six double
rounds, added word by word to the state before them, which holds constants, the key and the number
of the block. A seed of sixty-four bits is stretched to a key by a linear congruence with permuted
output.
-/

namespace PatternSampler.Keystream

/-- Four words that are worked on at once. -/
structure Row where
  a : UInt32
  b : UInt32
  c : UInt32
  d : UInt32
  deriving DecidableEq, Repr

namespace Row

/-- Word by word. -/
def zip (f : UInt32 → UInt32 → UInt32) (r s : Row) : Row :=
  ⟨f r.a s.a, f r.b s.b, f r.c s.c, f r.d s.d⟩

/-- Every word rotated to the left. -/
def rotateWords (n : UInt32) (r : Row) : Row :=
  let turn (w : UInt32) := (w <<< n) ||| (w >>> (32 - n))
  ⟨turn r.a, turn r.b, turn r.c, turn r.d⟩

/-- The words moved one place to the left, the first of them to the end. -/
def shift (r : Row) : Row := ⟨r.b, r.c, r.d, r.a⟩

/-- The words in order. -/
def toList (r : Row) : List UInt32 := [r.a, r.b, r.c, r.d]

end Row

/-- A state of the cipher. -/
structure Block where
  x : Row
  y : Row
  z : Row
  w : Row
  deriving DecidableEq, Repr

namespace Block

/-- One step of a round: the second row is added to the first, and the sum mixed into the fourth. -/
def step (n : UInt32) (x y w : Row) : Row × Row :=
  let x := x.zip (· + ·) y
  (x, (w.zip (· ^^^ ·) x).rotateWords n)

/-- A round on the columns. -/
def round (b : Block) : Block :=
  let (x, w) := step 16 b.x b.y b.w
  let (z, y) := step 12 b.z w b.y
  let (x, w) := step 8 x y w
  let (z, y) := step 7 z w y
  ⟨x, y, z, w⟩

/-- The diagonals as columns. -/
def diagonals (b : Block) : Block :=
  ⟨b.x, b.y.shift, b.z.shift.shift, b.w.shift.shift.shift⟩

/-- The columns as diagonals. -/
def columns (b : Block) : Block :=
  ⟨b.x, b.y.shift.shift.shift, b.z.shift.shift, b.w.shift⟩

/-- A round on the columns and one on the diagonals. -/
def doubleRound (b : Block) : Block :=
  b.round.diagonals.round.columns

/-- Some double rounds. -/
def doubleRounds : Nat → Block → Block
  | 0, b => b
  | n + 1, b => doubleRounds n b.doubleRound

/-- Word by word sums. -/
def add (b b' : Block) : Block :=
  ⟨b.x.zip (· + ·) b'.x, b.y.zip (· + ·) b'.y, b.z.zip (· + ·) b'.z, b.w.zip (· + ·) b'.w⟩

/-- The words in order. -/
def toList (b : Block) : List UInt32 :=
  b.x.toList ++ b.y.toList ++ b.z.toList ++ b.w.toList

end Block

/-- A key of eight words. -/
structure Key where
  first : Row
  second : Row
  deriving DecidableEq, Repr

/-- The words in the first row of every initial state. -/
def constants : Row := ⟨0x61707865, 0x3320646e, 0x79622d32, 0x6b206574⟩

/-- The state that a block starts from. -/
def initial (key : Key) (counter : UInt64) : Block :=
  ⟨constants, key.first, key.second, ⟨counter.toUInt32, (counter >>> 32).toUInt32, 0, 0⟩⟩

/-- A block of the keystream. -/
def block (key : Key) (counter : UInt64) : Block :=
  (initial key counter).doubleRounds 6 |>.add (initial key counter)

/-- The next state of the congruence that stretches a seed. -/
def advance (s : UInt64) : UInt64 :=
  s * 6364136223846793005 + 11634580027462260723

/-- The word that a state of the congruence gives: some of its upper bits, rotated to the right by
the five topmost. -/
def permuted (s : UInt64) : UInt32 :=
  let w := (((s >>> 18) ^^^ s) >>> 27).toUInt32
  let n := (s >>> 59).toUInt32
  (w >>> n) ||| (w <<< ((32 - n) % 32))

/-- The row that four steps of the congruence give, and the state after them. -/
def stretch (s : UInt64) : Row × UInt64 :=
  let s₁ := advance s
  let s₂ := advance s₁
  let s₃ := advance s₂
  let s₄ := advance s₃
  (⟨permuted s₁, permuted s₂, permuted s₃, permuted s₄⟩, s₄)

/-- The key of a seed. -/
def Key.ofSeed (seed : UInt64) : Key :=
  let (first, s) := stretch seed
  ⟨first, (stretch s).1⟩

/-- A place in a keystream: the words left of the current block, and the number of the next. -/
structure Position where
  key : Key
  counter : UInt64 := 0
  pending : List UInt32 := []

/-- The next word of a keystream. -/
def next (p : Position) : UInt32 × Position :=
  match p.pending with
  | word :: pending => (word, { p with pending })
  | [] =>
    let b := block p.key p.counter
    (b.x.a, { p with counter := p.counter + 1, pending := b.toList.tail })

/-- The keystream as a stream of words. -/
def words : WordStream Position where
  next := next

/-- The start of the keystream of a seed. -/
def start (seed : UInt64) : Position where
  key := Key.ofSeed seed

end PatternSampler.Keystream

namespace PatternSampler

/-- The source whose answers follow from a seed. -/
def Source.seeded : Source Keystream.Position := Keystream.words.source

end PatternSampler
