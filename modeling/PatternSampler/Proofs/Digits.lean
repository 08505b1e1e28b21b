import Mathlib.Data.List.Forall2
import Mathlib.Data.Nat.Digits.Defs
import PatternSampler.Proofs.Exclusion
import PatternSampler.Proofs.Failures

/-!
# Numerals digit by digit

`Numeral.IsNumeral` says which digits a text is made up of, and `Numeral.value` is the number that
they make, whatever its size. Both are stated without the reader of numerals, which takes a digit at
a time and stops when the number has outgrown its bound; `denotes_iff` shows that it reads this
number and no other.

A numeric escape is therefore settled by its digits (`escaped_classified`). It is at fault if it has
none or if their number does not fit into a word, and else stands for the code point with this
number, if there is a character there.
-/

namespace PatternSampler

namespace Numeral

/-- A character stands for a digit if it is the digit's own, in lower or in upper case. -/
def StandsFor (c : Char) (d : Nat) : Prop :=
  c = Nat.digitChar d ∨ c = (Nat.digitChar d).toUpper

instance (c : Char) (d : Nat) : Decidable (StandsFor c d) :=
  inferInstanceAs (Decidable (_ ∨ _))

/-- A text is a numeral of some digits of a base, at least one, with the most significant first. A
sign may come before them. -/
structure IsNumeral (base : Nat) (text : String) (digits : List Nat) : Prop where
  ne_nil : digits ≠ []
  lt_base : ∀ d ∈ digits, d < base
  spelled : ∃ cs, (text.toList = cs ∨ text.toList = '+' :: cs) ∧ List.Forall₂ StandsFor cs digits

/-- The number that digits make, with the most significant first. -/
def value (base : Nat) (digits : List Nat) : Nat := Nat.ofDigits base digits.reverse

/-- The digits of a base are what their characters are read as. -/
theorem digitIn?_of_standsFor {base : Nat} (hbase : base ≤ 16) {c : Char} {d : Nat}
    (hd : d < base) (hc : StandsFor c d) : digitIn? base c = some d := by
  have hread : ∀ d < 16, digit? (Nat.digitChar d) = some d ∧
      digit? (Nat.digitChar d).toUpper = some d := by
    decide
  obtain ⟨hlower, hupper⟩ := hread d (Nat.lt_of_lt_of_le hd hbase)
  have hdigit : digit? c = some d := by
    rcases hc with rfl | rfl
    · exact hlower
    · exact hupper
  rw [digitIn?, hdigit, Option.filter_some, decide_eq_true hd, if_pos rfl]

/-- What is read as a digit stands for it. -/
theorem standsFor_of_digit? {c : Char} {d : Nat} (hd : d < 16) (h : digit? c = some d) :
    StandsFor c d := by
  -- The ten digits, the six letters and the six capital letters.
  have hdigits : ∀ d < 10, Char.ofNat ('0'.toNat + d) = Nat.digitChar d := by decide
  have hletters : ∀ d < 6, Char.ofNat ('a'.toNat + d) = Nat.digitChar (d + 10) := by decide
  have hcapitals : ∀ d < 6, Char.ofNat ('A'.toNat + d) = (Nat.digitChar (d + 10)).toUpper := by
    decide
  have hchar {first : Char} (h : first ≤ c) :
      Char.ofNat (first.toNat + (c.toNat - first.toNat)) = c := by
    have hle : first.toNat ≤ c.toNat := h
    rw [Nat.add_sub_cancel' hle, Char.ofNat_toNat]
  unfold digit? at h
  split at h
  · next hrange =>
    have hlast : c.toNat ≤ '0'.toNat + 9 := hrange.2
    obtain rfl := Option.some.inj h
    left
    rw [← hdigits _ (by omega), hchar hrange.1]
  · split at h
    · next hrange =>
      obtain rfl := Option.some.inj h
      left
      rw [← hletters _ (by omega), hchar hrange.1]
    · split at h
      · next hrange =>
        obtain rfl := Option.some.inj h
        right
        rw [← hcapitals _ (by omega), hchar hrange.1]
      · cases h

/-- A character is read as a digit of a base if it stands for one, and as no other. -/
theorem digitIn?_eq_some_iff {base : Nat} (hbase : base ≤ 16) {c : Char} {d : Nat} :
    digitIn? base c = some d ↔ d < base ∧ StandsFor c d := by
  constructor
  · intro h
    obtain ⟨hdigit, hlt⟩ := Option.filter_eq_some_iff.mp h
    have hd : d < base := of_decide_eq_true hlt
    exact ⟨hd, standsFor_of_digit? (Nat.lt_of_lt_of_le hd hbase) hdigit⟩
  · rintro ⟨hd, hc⟩
    exact digitIn?_of_standsFor hbase hd hc

/-- Characters spell digits of a base if each stands for one of them. -/
theorem spells_iff {base : Nat} (hbase : base ≤ 16) {cs : List Char} {digits : List Nat} :
    Spells base cs digits ↔ (∀ d ∈ digits, d < base) ∧ List.Forall₂ StandsFor cs digits := by
  induction cs generalizing digits with
  | nil =>
    rw [spells_nil, List.forall₂_nil_left_iff]
    constructor
    · rintro rfl
      exact ⟨nofun, rfl⟩
    · exact And.right
  | cons c cs ih =>
    rw [spells_cons, List.forall₂_cons_left_iff]
    constructor
    · rintro ⟨d, ds, rfl, hc, hcs⟩
      obtain ⟨hd, hstands⟩ := (digitIn?_eq_some_iff hbase).mp hc
      obtain ⟨hds, hrest⟩ := ih.mp hcs
      exact ⟨List.forall_mem_cons.mpr ⟨hd, hds⟩, d, ds, hstands, hrest, rfl⟩
    · rintro ⟨hlt, d, ds, hstands, hrest, rfl⟩
      obtain ⟨hd, hds⟩ := List.forall_mem_cons.mp hlt
      exact ⟨d, ds, rfl, (digitIn?_eq_some_iff hbase).mpr ⟨hd, hstands⟩, ih.mpr ⟨hds, hrest⟩⟩

/-- The number that is built from the left is the number that the digits make. -/
theorem extend_zero (base : Nat) (digits : List Nat) :
    extend base 0 digits = value base digits := by
  rw [extend, value, Nat.ofDigits_eq_foldr, List.foldr_reverse]
  simp only [Nat.cast_id, Nat.mul_comm base, Nat.add_comm]

/-- A text denotes the number that the digits of its numeral make. -/
theorem denotes_iff {base : Nat} (hbase : base ≤ 16) {text : String} {n : Nat} :
    Denotes base text n ↔ ∃ digits, IsNumeral base text digits ∧ value base digits = n := by
  constructor
  · rintro ⟨cs, digits, htext, hspells, hne, hn⟩
    obtain ⟨hlt, hstands⟩ := (spells_iff hbase).mp hspells
    exact ⟨digits, ⟨hne, hlt, cs, htext, hstands⟩, by rw [hn, extend_zero]⟩
  · rintro ⟨digits, ⟨hne, hlt, cs, htext, hstands⟩, hn⟩
    exact ⟨cs, digits, htext, (spells_iff hbase).mpr ⟨hlt, hstands⟩, hne, by rw [extend_zero, hn]⟩

/-- A number in the digits of a base, with some zeros before it. -/
def padded (base zeros n : Nat) : List Nat := List.replicate zeros 0 ++ (base.digits n).reverse

/-- Zeros before a number do not change it. -/
theorem value_padded (base zeros n : Nat) : value base (padded base zeros n) = n := by
  rw [value, padded, List.reverse_append, List.reverse_reverse, List.reverse_replicate,
    Nat.ofDigits_append_replicate_zero, Nat.ofDigits_digits]

/-- Digits, at least one, are written by their characters. -/
theorem isNumeral_digitChars {base : Nat} {digits : List Nat} (hne : digits ≠ [])
    (hlt : ∀ d ∈ digits, d < base) :
    IsNumeral base (String.ofList (digits.map Nat.digitChar)) digits := by
  refine ⟨hne, hlt, _, .inl String.toList_ofList, ?_⟩
  rw [List.forall₂_map_left_iff, List.forall₂_same]
  exact fun d _ => .inl rfl

/-- A number with zeros before it is written in the digits of the base. -/
theorem isNumeral_padded {base : Nat} (hbase : 1 < base) (zeros n : Nat) :
    IsNumeral base (String.ofList ((padded base (zeros + 1) n).map Nat.digitChar))
      (padded base (zeros + 1) n) := by
  refine isNumeral_digitChars (by simp [padded]) fun d hd => ?_
  rw [padded, List.mem_append, List.mem_reverse] at hd
  rcases hd with hzero | hdigit
  · rw [List.eq_of_mem_replicate hzero]
    exact Nat.lt_trans Nat.zero_lt_one hbase
  · exact Nat.digits_lt_base hbase hdigit

end Numeral

open Numeral

/-- The bases of numeric escapes have digits and letters enough. -/
theorem EscapeForm.base_le (form : EscapeForm) : form.base ≤ 16 := by
  cases form <;> decide

/-- The bases of numeric escapes have more than one digit. -/
theorem EscapeForm.one_lt_base (form : EscapeForm) : 1 < form.base := by
  cases form <;> decide

/-- The surrogates, and what lies beyond the last plane, are no characters. -/
theorem not_isValidChar_iff {n : Nat} :
    ¬n.isValidChar ↔ 0xD800 ≤ n ∧ n ≤ 0xDFFF ∨ 0x110000 ≤ n := by
  rw [Nat.isValidChar]
  omega

section Escapes

variable {offset : UInt64} {form : EscapeForm} {code : String}

/-- A code is at fault if every number that it denotes is too large for a word. -/
theorem escaped_eq_invalidCode_iff :
    escaped offset form code = .error (.invalidCode offset code form.base) ↔
      ∀ n, Denotes form.base code n → 0xFFFFFFFF < n := by
  rw [escaped_eq_error]
  constructor
  · rintro (⟨hlarge, -⟩ | ⟨n, -, -, -, herror⟩)
    · exact hlarge
    · cases herror
  · intro hlarge
    exact .inl ⟨hlarge, rfl⟩

/-- A word is named as no code point if the code denotes it and no character is there. -/
theorem escaped_eq_invalidCodePoint_iff {v : UInt32} :
    escaped offset form code = .error (.invalidCodePoint offset v) ↔
      Denotes form.base code v.toNat ∧ ¬v.toNat.isValidChar := by
  rw [escaped_eq_error]
  constructor
  · rintro (⟨-, herror⟩ | ⟨n, hdenotes, hle, hvalid, herror⟩)
    · cases herror
    · cases herror
      rw [toNat_ofNat_word hle]
      exact ⟨hdenotes, hvalid⟩
  · rintro ⟨hdenotes, hvalid⟩
    have hle : v.toNat ≤ 0xFFFFFFFF := Nat.le_of_lt_succ v.toNat_lt
    exact .inr ⟨v.toNat, hdenotes, hle, hvalid, by rw [UInt32.ofNat_toNat]⟩

/-- A numeral is at fault for its number, if it is not for its text. -/
theorem forall_denotes_lt_iff {base bound : Nat} (hpos : 0 < base) (hbase : base ≤ 16) :
    (∀ n, Denotes base code n → bound < n) ↔
      (¬∃ digits, IsNumeral base code digits) ∨
        ∃ digits, IsNumeral base code digits ∧ bound < value base digits := by
  constructor
  · intro hlarge
    by_cases hnumeral : ∃ digits, IsNumeral base code digits
    · obtain ⟨digits, hdigits⟩ := hnumeral
      exact .inr ⟨digits, hdigits, hlarge _ ((denotes_iff hbase).mpr ⟨digits, hdigits, rfl⟩)⟩
    · exact .inl hnumeral
  · rintro (hnone | ⟨digits, hdigits, hlarge⟩) n hn
    · obtain ⟨digits, hdigits, -⟩ := (denotes_iff hbase).mp hn
      exact absurd ⟨digits, hdigits⟩ hnone
    · have hvalue := (denotes_iff hbase).mpr ⟨digits, hdigits, rfl⟩
      rw [hn.unique hpos hvalue]
      exact hlarge

end Escapes

/-- What a numeric escape stands for is settled by the digits that its code is a numeral of, however
many there are. The code is at fault if it is a numeral of none, or if their number does not fit
into a word. A number that does is named in the error if it is a surrogate's or lies beyond the last
plane, and else is the code point of the character. There is no other outcome, and every character
comes out of each of its numerals, with any number of zeros before it. -/
theorem escaped_classified (offset : UInt64) (form : EscapeForm) (code : String) :
    (escaped offset form code = .error (.invalidCode offset code form.base) ↔
      (¬∃ digits, IsNumeral form.base code digits) ∨
        ∃ digits, IsNumeral form.base code digits ∧ 2 ^ 32 - 1 < value form.base digits) ∧
    (∀ v : UInt32, escaped offset form code = .error (.invalidCodePoint offset v) ↔
      ∃ digits, IsNumeral form.base code digits ∧ value form.base digits = v.toNat ∧
        (0xD800 ≤ v.toNat ∧ v.toNat ≤ 0xDFFF ∨ 0x110000 ≤ v.toNat)) ∧
    (∀ c : Char, escaped offset form code = .ok c ↔
      ∃ digits, IsNumeral form.base code digits ∧ value form.base digits = c.toNat) ∧
    (escaped offset form code = .error (.invalidCode offset code form.base) ∨
      (∃ v, escaped offset form code = .error (.invalidCodePoint offset v)) ∨
        ∃ c, escaped offset form code = .ok c) ∧
    ∀ (c : Char) (zeros : Nat), escaped offset form
      (String.ofList ((padded form.base (zeros + 1) c.toNat).map Nat.digitChar)) = .ok c := by
  have hbase : form.base ≤ 16 := form.base_le
  refine ⟨?_, fun v => ?_, fun c => ?_, ?_, fun c zeros => ?_⟩
  · rw [escaped_eq_invalidCode_iff, forall_denotes_lt_iff form.base_pos hbase]
    rfl
  · rw [escaped_eq_invalidCodePoint_iff, denotes_iff hbase, not_isValidChar_iff]
    constructor
    · rintro ⟨⟨digits, hdigits, hvalue⟩, hplace⟩
      exact ⟨digits, hdigits, hvalue, hplace⟩
    · rintro ⟨digits, hdigits, hvalue, hplace⟩
      exact ⟨⟨digits, hdigits, hvalue⟩, hplace⟩
  · rw [escaped_eq_ok_iff, denotes_iff hbase]
  · cases hescaped : escaped offset form code with
    | ok c => exact .inr (.inr ⟨c, rfl⟩)
    | error e =>
      rcases escaped_eq_error.mp hescaped with ⟨-, rfl⟩ | ⟨n, -, -, -, rfl⟩
      · exact .inl rfl
      · exact .inr (.inl ⟨_, rfl⟩)
  · rw [escaped_eq_ok_iff, denotes_iff hbase]
    exact ⟨_, isNumeral_padded form.one_lt_base zeros c.toNat, value_padded _ _ _⟩

/-- A number that is beyond a word by the code point of a letter does not give the letter. -/
example : escaped 0 .hex "100000041" = .error (.invalidCode 0 "100000041" 16) := by rfl

end PatternSampler
