import PatternSampler.Decimal.Shortest

/-!
# Writing a float

A float is written with the digits of its shortest decimal. A `Layout` says which exponents are
written in positional notation; the others follow a mantissa, with their sign and without leading
zeros. `Layout.write` applies it.
-/

namespace PatternSampler.Decimal

/-- How the digits of a float are laid out. The exponents are those of the leading digit. -/
structure Layout where
  /-- The smallest exponent that is written positionally. -/
  least : Int
  /-- The largest exponent that is written positionally. -/
  most : Int

/-- Some zeros. -/
def zeros (n : Nat) : List Char := List.replicate n '0'

/-- Digits with an exponent for the last of them, written around a point. There is a digit on
either side of the point. -/
def positional (digits : List Char) (exponent : Int) : List Char :=
  if 0 ≤ exponent then digits ++ zeros exponent.toNat ++ ['.', '0']
  else
    let places := (-exponent).toNat
    if places < digits.length then
      digits.take (digits.length - places) ++ '.' :: digits.drop (digits.length - places)
    else '0' :: '.' :: zeros (places - digits.length) ++ digits

/-- Digits with an exponent for the first of them, written as a mantissa and a signed exponent. -/
def scientific (digits : List Char) (exponent : Int) : List Char :=
  let mantissa := match digits with
    | d :: rest@(_ :: _) => d :: '.' :: rest
    | short => short
  mantissa ++ 'e' :: (if exponent < 0 then '-' else '+') :: Nat.toDigits 10 exponent.natAbs

/-- The text of a finite float. -/
def Layout.write (l : Layout) (x : Float) : String :=
  let negative := 0x8000000000000000 ≤ x.toBits.toNat
  let b := Binary.ofFloat x
  let body :=
    if b.significand = 0 then ['0', '.', '0']
    else
      let d := shortest b
      let digits := Nat.toDigits 10 d.significand
      let leading := d.exponent + (digits.length - 1 : Nat)
      if l.least ≤ leading ∧ leading ≤ l.most then positional digits d.exponent
      else scientific digits leading
  String.ofList (if negative then '-' :: body else body)

end PatternSampler.Decimal
