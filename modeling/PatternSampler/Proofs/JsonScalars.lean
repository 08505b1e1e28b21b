import PatternSampler.Json.Printer
import PatternSampler.Json.Reader
import Mathlib.Data.List.TakeDrop

/-!
# Written scalars are read back

A scalar is read back from its written form, with what follows it left over. For strings, the escape
of each character is read as that character (`Text.body_escape`), whatever follows the closing mark.
For integers, the digits make the number again (`Number.unsigned_toDigits`), as long as what follows
does not go on with the number. In a written document a scalar is followed by a comma or a closing
bracket, if by anything at all: the text that follows `Stops` it.

`scalar_leaf` puts these together for the scalars that a reader takes as they are written.
-/

namespace PatternSampler.Json.Text

/-- The closing mark ends a string. -/
theorem body_mark (rest : List Char) : body ('"' :: rest) = .ok ([], rest) := by
  rw [body.eq_def]
  exact if_pos rfl

/-- A letter behind a backslash is read as the character it stands for. -/
theorem body_letter {e c : Char} (hu : e ≠ 'u') (he : unescape? e = some c) (rest : List Char) :
    body ('\\' :: e :: rest) = push c (body rest) := by
  rw [body.eq_def]
  dsimp only
  rw [if_neg (by decide), if_pos rfl, if_neg hu, he]

/-- Four digits behind a backslash and the letter are read as the character of the unit that they
make, if the unit means something by itself. -/
theorem body_unit {a b c d : Char} {unit : Nat} (hunit : hexUnit? a b c d = some unit)
    (htrailing : isTrailing unit = false) (hleading : isLeading unit = false) (rest : List Char) :
    body ('\\' :: 'u' :: a :: b :: c :: d :: rest) = push (Char.ofNat unit) (body rest) := by
  rw [body.eq_def]
  dsimp only
  rw [if_neg (by decide), if_pos rfl, if_pos rfl, hunit]
  dsimp only
  rw [htrailing, hleading]
  rfl

/-- A character that needs no escape is read as itself. -/
theorem body_plain {c : Char} (hmark : c ≠ '"') (hslash : c ≠ '\\') (hprints : 0x20 ≤ c.toNat)
    (rest : List Char) : body (c :: rest) = push c (body rest) := by
  rw [body.eq_def]
  dsimp only
  rw [if_neg hmark, if_neg hslash, if_neg (Nat.not_lt.mpr hprints)]

/-- The digits of a control character make its unit. -/
theorem hexUnit_control :
    ∀ n < 0x20, hexUnit? '0' '0' (Nat.digitChar (n / 16)) (Nat.digitChar (n % 16)) = some n := by
  decide

/-- A character is written as a backslash and a letter that stands for it, as its unit, or as
itself. -/
theorem escape_cases (c : Char) :
    (∃ e, e ≠ 'u' ∧ unescape? e = some c ∧ escape c = ['\\', e]) ∨
      (c.toNat < 0x20 ∧ escape c =
        ['\\', 'u', '0', '0', Nat.digitChar (c.toNat / 16), Nat.digitChar (c.toNat % 16)]) ∨
      (c ≠ '"' ∧ c ≠ '\\' ∧ 0x20 ≤ c.toNat ∧ escape c = [c]) := by
  by_cases hletter : c ∈ ['"', '\\', '\x08', '\x0c', '\n', '\r', '\t']
  · left
    simp only [List.mem_cons, List.not_mem_nil, or_false] at hletter
    rcases hletter with rfl | rfl | rfl | rfl | rfl | rfl | rfl
    · exact ⟨'"', by decide, rfl, rfl⟩
    · exact ⟨'\\', by decide, rfl, rfl⟩
    · exact ⟨'b', by decide, rfl, rfl⟩
    · exact ⟨'f', by decide, rfl, rfl⟩
    · exact ⟨'n', by decide, rfl, rfl⟩
    · exact ⟨'r', by decide, rfl, rfl⟩
    · exact ⟨'t', by decide, rfl, rfl⟩
  · right
    simp only [List.mem_cons, List.not_mem_nil, or_false, not_or] at hletter
    obtain ⟨hmark, hslash, hletters⟩ := hletter
    by_cases hcontrol : c.toNat < 0x20
    · left
      refine ⟨hcontrol, ?_⟩
      simp only [escape, hmark, hslash, hletters, hcontrol, if_false, if_true]
    · right
      refine ⟨hmark, hslash, Nat.not_lt.mp hcontrol, ?_⟩
      simp only [escape, hmark, hslash, hletters, hcontrol, if_false]

/-- The escape of a character is read as the character. -/
theorem body_escape (c : Char) (rest : List Char) :
    body (escape c ++ rest) = push c (body rest) := by
  rcases escape_cases c with ⟨e, hu, he, h⟩ | ⟨hcontrol, h⟩ | ⟨hmark, hslash, hprints, h⟩
  · rw [h]
    exact body_letter hu he rest
  · -- The unit of a control character is no half of a pair.
    have htrailing : isTrailing c.toNat = false := by
      simp only [isTrailing, Bool.and_eq_false_imp, decide_eq_true_eq, decide_eq_false_iff_not]
      omega
    have hleading : isLeading c.toNat = false := by
      simp only [isLeading, Bool.and_eq_false_imp, decide_eq_true_eq, decide_eq_false_iff_not]
      omega
    have hbody := body_unit (hexUnit_control c.toNat hcontrol) htrailing hleading rest
    rw [Char.ofNat_toNat] at hbody
    rw [h]
    exact hbody
  · rw [h]
    exact body_plain hmark hslash hprints rest

/-- The escapes of characters in a row are read as the characters, up to the closing mark. -/
theorem body_write (cs rest : List Char) :
    body (cs.flatMap escape ++ '"' :: rest) = .ok (cs, rest) := by
  induction cs with
  | nil => exact body_mark rest
  | cons c cs ih =>
    rw [List.flatMap_cons, List.append_assoc, body_escape, ih]
    rfl

end PatternSampler.Json.Text

namespace PatternSampler.Json.Number

/-- What a digit is does not depend on who asks. -/
theorem isDigit_eq (c : Char) : isDigit c = c.isDigit := by
  simp only [isDigit, Char.isDigit, Char.le_def]

/-- The digits of a number are digits. -/
theorem isDigit_of_mem_toDigits {n : Nat} {c : Char} (hc : c ∈ Nat.toDigits 10 n) :
    isDigit c = true := by
  rw [isDigit_eq]
  exact Nat.isDigit_of_mem_toDigits (by decide) (by decide) hc

/-- The digits at the front of a text end where the first other character stands. -/
theorem digits_append {ds rest : List Char} (hds : ∀ c ∈ ds, isDigit c = true)
    (hrest : ∀ c ∈ rest.head?, isDigit c = false) : digits (ds ++ rest) = (ds, rest) := by
  have htake : rest.takeWhile isDigit = [] := by
    cases rest with
    | nil => rfl
    | cons c cs => rw [List.takeWhile_cons, hrest c rfl, if_neg Bool.false_ne_true]
  have hdrop : rest.dropWhile isDigit = rest := by
    cases rest with
    | nil => rfl
    | cons c cs => rw [List.dropWhile_cons, hrest c rfl, if_neg Bool.false_ne_true]
  rw [digits, List.span_eq_takeWhile_dropWhile, List.takeWhile_append_of_pos hds,
    List.dropWhile_append_of_pos hds, htake, hdrop, List.append_nil]

/-- Digits make a number no smaller. -/
theorem le_ofDigitChars (ds : List Char) (n : Nat) : n ≤ Nat.ofDigitChars 10 ds n := by
  induction ds generalizing n with
  | nil => exact Nat.le_of_eq Nat.ofDigitChars_nil.symm
  | cons d ds ih =>
    calc n ≤ 10 * n + (d.toNat - '0'.toNat) := by omega
      _ ≤ Nat.ofDigitChars 10 ds (10 * n + (d.toNat - '0'.toNat)) := ih _
      _ = Nat.ofDigitChars 10 (d :: ds) n := Nat.ofDigitChars_cons.symm

/-- A significand has room for all digits of a number of sixty-four bits. -/
theorem extend_eq {ds : List Char} {n : Nat}
    (h : Nat.ofDigitChars 10 ds n ≤ 0xFFFFFFFFFFFFFFFF) :
    extend n ds = (Nat.ofDigitChars 10 ds n, 0) := by
  induction ds generalizing n with
  | nil => rw [extend, Nat.ofDigitChars_nil]
  | cons d ds ih =>
    rw [Nat.ofDigitChars_cons] at h ⊢
    have hwider : n * 10 + (d.toNat - '0'.toNat) = 10 * n + (d.toNat - '0'.toNat) := by omega
    have hroom := Nat.le_trans (le_ofDigitChars ds _) h
    rw [extend, hwider, if_pos hroom]
    exact ih h

/-- The first digit of a number is zero for zero only. -/
theorem eq_zero_of_head_toDigits {n : Nat} (h : (Nat.toDigits 10 n).head? = some '0') : n = 0 := by
  induction n using Nat.strongRecOn with
  | _ n ih =>
    rw [Nat.toDigits_eq_if (by decide)] at h
    split at h
    · exact Nat.digitChar_eq_zero.mp (Option.some.inj h)
    · next hge =>
      -- The first digit is also that of a tenth of the number, which is zero then.
      have hfirst : (Nat.toDigits 10 (n / 10)).head? = some '0' := by
        have hsome : (Nat.toDigits 10 (n / 10)).head?.isSome := by
          rw [List.isSome_head?]
          exact Nat.toDigits_ne_nil
        rw [List.head?_append] at h
        rwa [Option.or_of_isSome hsome] at h
      have hzero := ih (n / 10) (by omega) hfirst
      omega

/-- The digits of a number of sixty-four bits are read as the number, unless what follows them goes
on with it. -/
theorem unsigned_toDigits {n : Nat} (hn : n ≤ 0xFFFFFFFFFFFFFFFF) (negative : Bool)
    {rest : List Char}
    (hrest : ∀ c ∈ rest.head?, isDigit c = false ∧ c ≠ '.' ∧ c ≠ 'e' ∧ c ≠ 'E') :
    unsigned negative (Nat.toDigits 10 n ++ rest) = .ok (whole negative n, rest) := by
  have hdigits : digits (Nat.toDigits 10 n ++ rest) = (Nat.toDigits 10 n, rest) :=
    digits_append (fun _ hc => isDigit_of_mem_toDigits hc) fun c hc => (hrest c hc).1
  have hextend : extend 0 (Nat.toDigits 10 n) = (n, 0) := by
    have hvalue : Nat.ofDigitChars 10 (Nat.toDigits 10 n) 0 = n := Nat.ofDigitChars_ten_toDigits
    rw [extend_eq (by rwa [hvalue]), hvalue]
  unfold unsigned
  rw [hdigits]
  split
  · next h => exact absurd (Prod.mk.inj h).1 Nat.toDigits_ne_nil
  · next h => exact absurd (Prod.mk.inj h).1 Nat.toDigits_ne_nil
  · next d ds _ h =>
    -- A number with more than one digit does not start with zero.
    have htwo := (Prod.mk.inj h).1
    have hzero : n = 0 := eq_zero_of_head_toDigits (by rw [htwo]; rfl)
    rw [hzero, Nat.toDigits_zero] at htwo
    cases htwo
  · next h =>
    obtain ⟨rfl, rfl⟩ := Prod.mk.inj h
    rw [hextend]
    dsimp only
    -- Neither a point nor an exponent follows, so the number is whole.
    split
    · exact absurd rfl (hrest '.' rfl).2.1
    · exact absurd rfl (hrest 'e' rfl).2.2.1
    · exact absurd rfl (hrest 'E' rfl).2.2.2
    · rw [if_pos rfl]

end PatternSampler.Json.Number

namespace PatternSampler.Json

/-- A text that a value may be followed by in a written document. -/
def Stops (rest : List Char) : Prop := ∀ c ∈ rest.head?, c = ',' ∨ c = ']' ∨ c = '\x7d'

/-- A scalar that is written so that it can be read back: any but a float, where an integer has at
most sixty-four bits, with a sign or without. -/
def Leaf : Json → Prop
  | null | bool _ | string _ => True
  | integer n => -0x8000000000000000 ≤ n ∧ n ≤ 0xFFFFFFFFFFFFFFFF
  | _ => False

/-- What stops a value does not go on with a number. -/
theorem Stops.ends_number {rest : List Char} (h : Stops rest) :
    ∀ c ∈ rest.head?, Number.isDigit c = false ∧ c ≠ '.' ∧ c ≠ 'e' ∧ c ≠ 'E' := by
  intro c hc
  rcases h c hc with rfl | rfl | rfl
  · decide
  · decide
  · decide

/-- A word is found at the front of the text that it was put before. -/
theorem word_append (ws rest : List Char) : word ws (ws ++ rest) = .ok rest := by
  induction ws with
  | nil => rfl
  | cons w ws ih =>
    rw [List.cons_append, word, if_pos rfl]
    exact ih

/-- A digit is none of the characters that are no digits. -/
theorem ne_of_isDigit {c d : Char} (hd : Number.isDigit d = true) (hc : Number.isDigit c = false) :
    d ≠ c := by
  intro heq
  rw [heq, hc] at hd
  cases hd

/-- A digit opens a number. -/
theorem scalar_digit {d : Char} (hd : Number.isDigit d = true) (rest : List Char) :
    scalar d rest = Number.unsigned false (d :: rest) := by
  rw [scalar, if_neg (ne_of_isDigit hd rfl), if_neg (ne_of_isDigit hd rfl),
    if_neg (ne_of_isDigit hd rfl), if_neg (ne_of_isDigit hd rfl), if_pos (.inr hd), Number.read,
    if_neg (ne_of_isDigit hd rfl)]

/-- A character that a scalar may start with: neither a blank nor a bracket. -/
def OpensScalar (c : Char) : Prop := isBlank c = false ∧ c ≠ ']' ∧ c ≠ '[' ∧ c ≠ '\x7b'

/-- A digit starts like a scalar. -/
theorem opensScalar_digit {d : Char} (hd : Number.isDigit d = true) : OpensScalar d := by
  have hblank : isBlank d = false := by
    have hne (c : Char) (hc : Number.isDigit c = false) : decide (d = c) = false :=
      decide_eq_false (ne_of_isDigit hd hc)
    rw [isBlank, hne ' ' rfl, hne '\n' rfl, hne '\t' rfl, hne '\r' rfl]
    rfl
  exact ⟨hblank, ne_of_isDigit hd rfl, ne_of_isDigit hd rfl, ne_of_isDigit hd rfl⟩

/-- The digits of an integer are read as the integer. -/
theorem scalar_integer {n : Int} (hleast : -0x8000000000000000 ≤ n)
    (hmost : n ≤ 0xFFFFFFFFFFFFFFFF) :
    ∃ c cs, (toString n).toList = c :: cs ∧ OpensScalar c ∧
      ∀ rest, Stops rest → scalar c (cs ++ rest) = .ok (.integer n, rest) := by
  rw [Int.toString_eq_repr, Int.repr_eq_if]
  split
  · next hpos =>
    have hmagnitude : n.toNat ≤ 0xFFFFFFFFFFFFFFFF := by omega
    rw [Nat.toList_repr]
    obtain ⟨d, ds, hds⟩ := List.exists_cons_of_ne_nil (Nat.toDigits_ne_nil (n := n.toNat) (b := 10))
    have hd : Number.isDigit d = true :=
      Number.isDigit_of_mem_toDigits (n := n.toNat) (hds ▸ List.mem_cons_self)
    refine ⟨d, ds, hds, opensScalar_digit hd, fun rest hrest => ?_⟩
    have hread := Number.unsigned_toDigits hmagnitude false hrest.ends_number
    rw [scalar_digit hd, ← List.cons_append, ← hds, hread, Number.whole, if_pos rfl,
      Int.toNat_of_nonneg hpos]
  · next hneg =>
    have hmagnitude : (-n).toNat ≤ 0xFFFFFFFFFFFFFFFF := by omega
    have hopens : OpensScalar '-' := by unfold OpensScalar; decide
    refine ⟨'-', Nat.toDigits 10 (-n).toNat, ?_, hopens, fun rest hrest => ?_⟩
    · rw [String.toList_append, Nat.toList_repr]
      rfl
    · have hread := Number.unsigned_toDigits hmagnitude true hrest.ends_number
      -- The magnitude is small enough for a number with a sign.
      have hwhole : Number.whole true (-n).toNat = .integer n := by
        rw [Number.whole, if_neg (by decide), if_pos (by omega)]
        congr 1
        omega
      rw [hwhole] at hread
      exact hread

/-- A leaf starts like a scalar, and reading from there on gives it back. -/
theorem scalar_leaf {j : Json} (hj : j.Leaf) :
    ∃ c cs, j.write = c :: cs ∧ OpensScalar c ∧
      ∀ rest, Stops rest → scalar c (cs ++ rest) = .ok (j, rest) := by
  cases j with
  | null =>
    refine ⟨'n', "ull".toList, rfl, by unfold OpensScalar; decide, fun rest _ => ?_⟩
    have hscalar : scalar 'n' ("ull".toList ++ rest) =
        (word "ull".toList ("ull".toList ++ rest)).map fun rest => (.null, rest) := rfl
    rw [hscalar, word_append]
    rfl
  | bool b =>
    cases b with
    | true =>
      refine ⟨'t', "rue".toList, rfl, by unfold OpensScalar; decide, fun rest _ => ?_⟩
      have hscalar : scalar 't' ("rue".toList ++ rest) =
          (word "rue".toList ("rue".toList ++ rest)).map fun rest => (.bool true, rest) := rfl
      rw [hscalar, word_append]
      rfl
    | false =>
      refine ⟨'f', "alse".toList, rfl, by unfold OpensScalar; decide, fun rest _ => ?_⟩
      have hscalar : scalar 'f' ("alse".toList ++ rest) =
          (word "alse".toList ("alse".toList ++ rest)).map fun rest => (.bool false, rest) := rfl
      rw [hscalar, word_append]
      rfl
  | integer n =>
    obtain ⟨hleast, hmost⟩ := hj
    exact scalar_integer hleast hmost
  | string s =>
    refine ⟨'"', s.toList.flatMap Text.escape ++ ['"'], rfl, by unfold OpensScalar; decide,
      fun rest _ => ?_⟩
    rw [List.append_assoc, List.singleton_append, scalar, if_pos rfl, Text.body_write]
    exact congrArg (fun s => Except.ok (Json.string s, rest)) (String.ofList_toList)
  | float _ | array _ | object _ => exact hj.elim

end PatternSampler.Json
