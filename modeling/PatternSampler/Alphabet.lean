/-!
# Alphabets

The pools of characters that classes draw from, in the order in which a choice counts through
them, the classes with a shorthand spelling, and the control characters with their symbols.
-/

namespace PatternSampler.Alphabet

/-- The characters from one code point to another, ends included. -/
def interval (first last : Nat) : List Char :=
  (List.range (last + 1 - first)).map fun i => Char.ofNat (first + i)

/-- A number below the surrogates is the code point of its character. -/
theorem toNat_ofNat {n : Nat} (h : n < 0xD800) : (Char.ofNat n).toNat = n := by
  have hvalid : n.isValidChar := .inl h
  rw [Char.ofNat, dif_pos hvalid]
  rfl

/-- The characters from one code point to another, below the surrogates, are those in between. -/
theorem mem_interval {first last : Nat} (h : last < 0xD800) {x : Char} :
    x ∈ interval first last ↔ first ≤ x.toNat ∧ x.toNat ≤ last := by
  simp only [interval, List.mem_map, List.mem_range]
  constructor
  · rintro ⟨i, hi, rfl⟩
    rw [toNat_ofNat (by omega)]
    omega
  · intro hx
    refine ⟨x.toNat - first, by omega, ?_⟩
    rw [Nat.add_sub_cancel' hx.1, Char.ofNat_toNat]

/-- The small letters. -/
def lower : List Char := interval 0x61 0x7A

/-- The capital letters. -/
def upper : List Char := interval 0x41 0x5A

/-- The digits. -/
def number : List Char := interval 0x30 0x39

/-- The blanks: space, form feed, line feed, carriage return, tab, vertical tab, no-break space, and
the separators of lines and paragraphs. -/
def space : List Char :=
  [' ', '\x0c', '\n', '\r', '\t', '\x0b', '\u00a0', '\u2028', '\u2029']

/-- The printable ASCII characters, with the space and without the delete character. -/
def printable : List Char := interval 0x20 0x7E

/-- The printable ASCII characters that are no letter, no digit and no underscore. -/
def other : List Char :=
  (interval 0x20 0x2F ++ interval 0x3A 0x40 ++ interval 0x5B 0x60 ++ interval 0x7B 0x7E).filter
    (· ≠ '_')

/-- The letters and digits. -/
def alnum : List Char := lower ++ upper ++ number

/-- The letters, and the characters that are neither letter nor digit nor underscore. -/
def nonDigit : List Char := lower ++ upper ++ other

/-- A class with a shorthand spelling. -/
inductive Shorthand where
  | word
  | nonWord
  | digit
  | nonDigit
  | space
  | nonSpace
  deriving DecidableEq, Repr

namespace Shorthand

/-- The class with the given spelling. -/
def ofText? (text : String) : Option Shorthand :=
  if text = "\\w" then some word
  else if text = "\\W" then some nonWord
  else if text = "\\d" then some digit
  else if text = "\\D" then some nonDigit
  else if text = "\\s" then some space
  else if text = "\\S" then some nonSpace
  else none

/-- The characters of a class. -/
def members : Shorthand → List Char
  | word => alnum ++ ['_']
  | nonWord => other
  | digit => number
  | nonDigit => Alphabet.nonDigit
  | space => Alphabet.space
  | nonSpace => printable.filter (· ∉ Alphabet.space)

end Shorthand

/-- The symbols of the control characters, in the order of their code points. -/
def controlSymbols : List Char := interval 0x40 0x5F

/-- The control character with the given symbol. -/
def control? (symbol : Char) : Option Char :=
  (controlSymbols.idxOf? symbol).map Char.ofNat

end PatternSampler.Alphabet
