import PatternSampler.Choice.Source

/-!
# Uniform choices from a stream of words

A word of thirty-two bits is turned into one of `range` values by a widening multiplication: the
high half of the product is the value, and the low half says whether the word is accepted. A word is
accepted when the low half is at most a `zone`, which is chosen so that every value is the high
half of equally many accepted words. A rejected word is followed by another, until one is accepted.
-/

namespace PatternSampler

/-- A stream of words, with states of type `σ`. -/
structure WordStream (σ : Type) where
  next : σ → UInt32 × σ

namespace WordStream

variable {σ α : Type} (words : WordStream σ)

/-- One step of a search: a word that is accepted ends it, with the state behind that word, and
another is followed by the next one. -/
def searchStep (accepts : UInt32 → Bool) (s : σ) : σ ⊕ (UInt32 × σ) :=
  let (word, s) := words.next s
  if accepts word then .inr (word, s) else .inl s

/-- The first word of a stream that is accepted, and the state behind it. The search does not end
where no word is accepted. -/
def search (accepts : UInt32 → Bool) (s : σ) : UInt32 × σ :=
  have : Nonempty (UInt32 × σ) := ⟨words.next s⟩
  Id.run (repeatM (fun s => pure (words.searchStep accepts s)) s)

/-- The value of the first word of a stream that has one, and the state behind that word. The word
that is found has a value, so the fallback only stands in for one. -/
def draw (value? : UInt32 → Option α) (fallback : α) (s : σ) : α × σ :=
  let (word, s) := words.search (fun word => (value? word).isSome) s
  ((value? word).getD fallback, s)

end WordStream

namespace Uniform

/-- The value that a word stands for among `range` values, if it is accepted. -/
def accept (range zone word : UInt32) : Option UInt32 :=
  let product := word.toUInt64 * range.toUInt64
  if product.toUInt32 ≤ zone then some (product >>> 32).toUInt32 else none

/-- How many zeros stand before the first one of a word. -/
def leadingZeros (word : UInt32) : UInt32 := ⟨word.toBitVec.clz⟩

/-- The zone for integers: the range is shifted until it fills a word. -/
def integerZone (range : UInt32) : UInt32 := (range <<< leadingZeros range) - 1

/-- The integer within bounds that a word stands for, if it is accepted. Where the bounds leave
nothing out, the range is no word, and every word stands for itself. -/
def integer? (least most word : UInt32) : Option UInt32 :=
  let range := most - least + 1
  if range = 0 then some word else (accept range (integerZone range) word).map (least + ·)

/-- The number of printable ASCII characters. -/
def characterRange : UInt32 := 95

/-- The zone for characters: the largest multiple of their number fits below it. -/
def characterZone : UInt32 :=
  0xFFFFFFFF - (0xFFFFFFFF - characterRange + 1) % characterRange

/-- The printable ASCII character that a word stands for, if it is accepted. -/
def character? (word : UInt32) : Option Char :=
  (accept characterRange characterZone word).map fun value => Char.ofNat (0x20 + value.toNat)

/-- An integer within bounds, drawn uniformly. -/
def integer {σ : Type} (words : WordStream σ) (least most : UInt32) (s : σ) : UInt32 × σ :=
  words.draw (integer? least most) least s

/-- A printable ASCII character, drawn uniformly. -/
def character {σ : Type} (words : WordStream σ) (s : σ) : Char × σ :=
  words.draw character? ' ' s

/-- One of two sides, by the highest bit of the second of two words. -/
def boolean {σ : Type} (words : WordStream σ) (s : σ) : Bool × σ :=
  let (_, s) := words.next s
  let (high, s) := words.next s
  (high < 0x80000000, s)

end Uniform

/-- The source that draws every answer uniformly from a stream of words. -/
def WordStream.source {σ : Type} (words : WordStream σ) : Source σ where
  answer
    | .boolean, s => Uniform.boolean words s
    | .integer least most, s => Uniform.integer words least most s
    | .character, s => Uniform.character words s

end PatternSampler
