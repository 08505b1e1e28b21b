import PatternSampler.Text.Unprintable

/-!
# Quoted text

Error messages show a character or a text between quotation marks. Inside them the marks
themselves, the backslash, and the characters that a reader could not see are spelled by an
escape: a named one for NUL, tab, line feed and carriage return, a code point in braces for the
rest. A text stands between `"` and leaves `'` alone; a character stands between `'` and leaves
`"` alone.
-/

namespace PatternSampler.Text

/-- The digits of a code point or a number in base sixteen, in lower case and without leading
zeros. -/
def hexadecimal (n : Nat) : String :=
  String.ofList (Nat.toDigits 16 n)

/-- A character as it stands between two marks `mark`. -/
def spell (mark c : Char) : List Char :=
  match c with
  | '\x00' => ['\\', '0']
  | '\t' => ['\\', 't']
  | '\n' => ['\\', 'n']
  | '\r' => ['\\', 'r']
  | '\\' => ['\\', '\\']
  | c =>
    if c = mark then ['\\', c]
    else if isUnprintable c then "\\u\x7b".toList ++ (hexadecimal c.toNat).toList ++ ['\x7d']
    else [c]

/-- A text between double quotation marks. -/
def quote (s : String) : String :=
  String.ofList ('"' :: s.toList.flatMap (spell '"') ++ ['"'])

/-- A character between single quotation marks. -/
def quoteChar (c : Char) : String :=
  String.ofList ('\'' :: spell '\'' c ++ ['\''])

end PatternSampler.Text
