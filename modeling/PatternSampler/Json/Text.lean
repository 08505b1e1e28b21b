import PatternSampler.Json.Fault

/-!
# JSON strings

A string stands between double quotation marks. Inside, a quotation mark, a backslash and the
characters below U+0020 have to be escaped, and every character may be. `Text.body` reads a string
after its opening mark, `Text.write` writes one with the fewest escapes.
-/

namespace PatternSampler.Json.Text

/-- The character of a one-letter escape. -/
def unescape? (c : Char) : Option Char :=
  if c = '"' ∨ c = '\\' ∨ c = '/' then some c
  else if c = 'b' then some '\x08'
  else if c = 'f' then some '\x0c'
  else if c = 'n' then some '\n'
  else if c = 'r' then some '\r'
  else if c = 't' then some '\t'
  else none

/-- The value of a digit in base sixteen. -/
def hexDigit? (c : Char) : Option Nat :=
  if '0' ≤ c ∧ c ≤ '9' then some (c.toNat - '0'.toNat)
  else if 'a' ≤ c ∧ c ≤ 'f' then some (c.toNat - 'a'.toNat + 10)
  else if 'A' ≤ c ∧ c ≤ 'F' then some (c.toNat - 'A'.toNat + 10)
  else none

/-- The value of four digits in base sixteen. -/
def hexUnit? (a b c d : Char) : Option Nat := do
  let a ← hexDigit? a
  let b ← hexDigit? b
  let c ← hexDigit? c
  let d ← hexDigit? d
  pure (((a * 16 + b) * 16 + c) * 16 + d)

/-- A unit that only means something before another one. -/
def isLeading (unit : Nat) : Bool := 0xD800 ≤ unit && unit ≤ 0xDBFF

/-- A unit that only means something after a leading one. -/
def isTrailing (unit : Nat) : Bool := 0xDC00 ≤ unit && unit ≤ 0xDFFF

/-- The character of a leading and a trailing unit. -/
def pair (leading trailing : Nat) : Char :=
  Char.ofNat ((leading - 0xD800) * 0x400 + (trailing - 0xDC00) + 0x10000)

/-- The fault of a numeric escape for which fewer than four characters are left. The text has ended
if they are fewer than four bytes; else one of them is no digit. -/
def shortEscape (rest : List Char) : Fault :=
  if rest.foldl (fun bytes c => bytes + c.utf8Size) 0 < 4 then .cutShort .string else .badEscape

/-- A string whose first character has been read. -/
def push (c : Char) (rest : Except Fault (List Char × List Char)) :
    Except Fault (List Char × List Char) :=
  rest.map fun (cs, after) => (c :: cs, after)

/-- The characters of a string after its opening mark, and the text after its closing one. -/
def body : Reader (List Char)
  | [] => .error (.cutShort .string)
  | c :: rest =>
    if c = '"' then .ok ([], rest)
    else if c = '\\' then
      match rest with
      | [] => .error (.cutShort .string)
      | e :: rest =>
        if e = 'u' then
          match rest with
          | a :: b :: c :: d :: rest =>
            match hexUnit? a b c d with
            | none => .error .badEscape
            | some unit =>
              if isTrailing unit then .error .loneSurrogate
              else if isLeading unit then
                match rest with
                | [] => .error (.cutShort .string)
                | c :: rest =>
                  if c ≠ '\\' then .error .unfinishedSurrogate
                  else
                    match rest with
                    | [] => .error (.cutShort .string)
                    | c :: rest =>
                      if c ≠ 'u' then .error .unfinishedSurrogate
                      else
                        match rest with
                        | a :: b :: c :: d :: rest =>
                          match hexUnit? a b c d with
                          | none => .error .badEscape
                          | some unit' =>
                            if isTrailing unit' then push (pair unit unit') (body rest)
                            else .error .loneSurrogate
                        | few => .error (shortEscape few)
              else push (Char.ofNat unit) (body rest)
          | few => .error (shortEscape few)
        else
          match unescape? e with
          | some c => push c (body rest)
          | none => .error .badEscape
    else if c.toNat < 0x20 then .error .rawControl
    else push c (body rest)

/-- A character as it stands in a written string. -/
def escape (c : Char) : List Char :=
  if c = '"' then ['\\', '"']
  else if c = '\\' then ['\\', '\\']
  else if c = '\x08' then ['\\', 'b']
  else if c = '\x0c' then ['\\', 'f']
  else if c = '\n' then ['\\', 'n']
  else if c = '\r' then ['\\', 'r']
  else if c = '\t' then ['\\', 't']
  else if c.toNat < 0x20 then
    ['\\', 'u', '0', '0', Nat.digitChar (c.toNat / 16), Nat.digitChar (c.toNat % 16)]
  else [c]

/-- A written string. -/
def write (s : String) : List Char :=
  '"' :: s.toList.flatMap escape ++ ['"']

end PatternSampler.Json.Text
