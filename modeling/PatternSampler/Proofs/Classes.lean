import PatternSampler.Alphabet
import PatternSampler.Pattern.Build

/-!
# Classes of characters

`Shorthand.Covers` says which characters a class stands for in a regular expression, by their code
points and over all of Unicode. The pools of `Alphabet` are what a sampler draws from instead.
`covers_of_mem_members` shows that a pool holds no character from outside its class, and
`mem_members_of_covers` that every printable character of a class is in its pool, with one
exception: the underscore is no digit, but is missing in the pool of those that are none.
-/

namespace PatternSampler

namespace Alphabet

/-- A decimal digit. -/
def IsDigit (x : Char) : Prop := 0x30 ≤ x.toNat ∧ x.toNat ≤ 0x39

/-- A letter, a digit or the underscore. -/
def IsWord (x : Char) : Prop :=
  IsDigit x ∨ (0x41 ≤ x.toNat ∧ x.toNat ≤ 0x5A) ∨ (0x61 ≤ x.toNat ∧ x.toNat ≤ 0x7A) ∨
    x.toNat = 0x5F

/-- One of the nine blanks: tab, line feed, vertical tab, form feed, carriage return, space,
no-break space, and the separators of lines and paragraphs. -/
def IsBlank (x : Char) : Prop :=
  (0x09 ≤ x.toNat ∧ x.toNat ≤ 0x0D) ∨ x.toNat = 0x20 ∨ x.toNat = 0xA0 ∨ x.toNat = 0x2028 ∨
    x.toNat = 0x2029

/-- The characters that a class stands for. -/
def Shorthand.Covers : Shorthand → Char → Prop
  | word, x => IsWord x
  | nonWord, x => ¬ IsWord x
  | digit, x => IsDigit x
  | nonDigit, x => ¬ IsDigit x
  | space, x => IsBlank x
  | nonSpace, x => ¬ IsBlank x

/-- The printable characters by their code points. -/
theorem mem_printable {x : Char} : x ∈ printable ↔ 0x20 ≤ x.toNat ∧ x.toNat ≤ 0x7E :=
  mem_interval (by decide)

/-- The small letters by their code points. -/
theorem mem_lower {x : Char} : x ∈ lower ↔ 0x61 ≤ x.toNat ∧ x.toNat ≤ 0x7A :=
  mem_interval (by decide)

/-- The capital letters by their code points. -/
theorem mem_upper {x : Char} : x ∈ upper ↔ 0x41 ≤ x.toNat ∧ x.toNat ≤ 0x5A :=
  mem_interval (by decide)

/-- The pool of the digits holds the digits. -/
theorem mem_number {x : Char} : x ∈ number ↔ IsDigit x := mem_interval (by decide)

/-- The pool of letters and digits holds what may stand in a word, but for the underscore. -/
theorem mem_alnum {x : Char} : x ∈ alnum ↔ IsWord x ∧ x.toNat ≠ 0x5F := by
  simp only [alnum, List.mem_append, mem_lower, mem_upper, mem_number, IsWord, IsDigit]
  omega

/-- The pool of other characters holds the printable ones that do not stand in words. -/
theorem mem_other {x : Char} : x ∈ other ↔ x ∈ printable ∧ ¬ IsWord x := by
  have hunderscore : x = '_' ↔ x.toNat = 0x5F := Char.toNat_inj.symm
  have h₁ : x ∈ interval 0x20 0x2F ↔ 0x20 ≤ x.toNat ∧ x.toNat ≤ 0x2F := mem_interval (by decide)
  have h₂ : x ∈ interval 0x3A 0x40 ↔ 0x3A ≤ x.toNat ∧ x.toNat ≤ 0x40 := mem_interval (by decide)
  have h₃ : x ∈ interval 0x5B 0x60 ↔ 0x5B ≤ x.toNat ∧ x.toNat ≤ 0x60 := mem_interval (by decide)
  have h₄ : x ∈ interval 0x7B 0x7E ↔ 0x7B ≤ x.toNat ∧ x.toNat ≤ 0x7E := mem_interval (by decide)
  simp only [other, List.mem_filter, List.mem_append, h₁, h₂, h₃, h₄, decide_eq_true_eq,
    ne_eq, hunderscore, mem_printable, IsWord, IsDigit]
  omega

/-- The pool of the blanks holds the blanks. -/
theorem mem_space {x : Char} : x ∈ space ↔ IsBlank x := by
  simp only [space, List.mem_cons, List.not_mem_nil, or_false, ← Char.toNat_inj, Char.reduceToNat,
    IsBlank]
  omega

/-- The pool of the characters that are no digits holds the printable ones, but for the
underscore. -/
theorem mem_nonDigit {x : Char} :
    x ∈ nonDigit ↔ x ∈ printable ∧ ¬ IsDigit x ∧ x.toNat ≠ 0x5F := by
  simp only [nonDigit, List.mem_append, mem_lower, mem_upper, mem_other, mem_printable, IsWord,
    IsDigit]
  omega

namespace Shorthand

/-- A pool holds characters of its class only. -/
theorem covers_of_mem_members {shorthand : Shorthand} {x : Char} (h : x ∈ shorthand.members) :
    shorthand.Covers x := by
  cases shorthand with
  | word =>
    rcases List.mem_append.mp h with h | h
    · exact (mem_alnum.mp h).1
    · rw [List.mem_singleton.mp h]
      exact .inr (.inr (.inr rfl))
  | nonWord => exact (mem_other.mp h).2
  | digit => exact mem_number.mp h
  | nonDigit => exact (mem_nonDigit.mp h).2.1
  | space => exact mem_space.mp h
  | nonSpace =>
    have hspace : x ∉ Alphabet.space := of_decide_eq_true (List.mem_filter.mp h).2
    exact fun hblank => hspace (mem_space.mpr hblank)

/-- A printable character of a class is in its pool. The underscore is not, in the pool of the
characters that are no digits. -/
theorem mem_members_of_covers {shorthand : Shorthand} {x : Char} (hx : x ∈ printable)
    (h : shorthand.Covers x) (hne : shorthand = nonDigit → x ≠ '_') : x ∈ shorthand.members := by
  have hunderscore : x = '_' ↔ x.toNat = 0x5F := Char.toNat_inj.symm
  cases shorthand with
  | word =>
    refine List.mem_append.mpr ?_
    by_cases hx : x = '_'
    · exact .inr (List.mem_singleton.mpr hx)
    · exact .inl (mem_alnum.mpr ⟨h, fun h => hx (hunderscore.mpr h)⟩)
  | nonWord => exact mem_other.mpr ⟨hx, h⟩
  | digit => exact mem_number.mpr h
  | nonDigit => exact mem_nonDigit.mpr ⟨hx, h, fun h => hne rfl (hunderscore.mpr h)⟩
  | space => exact mem_space.mpr h
  | nonSpace =>
    exact List.mem_filter.mpr ⟨hx, decide_eq_true fun hspace => h (mem_space.mp hspace)⟩

end Shorthand

end Alphabet

/-- The class that a leaf without content stands for, if it is one with a shorthand spelling. -/
def Token.shorthand? : Token → Option Alphabet.Shorthand
  | .word => some .word
  | .nonWord => some .nonWord
  | .digit => some .digit
  | .nonDigit => some .nonDigit
  | .whiteSpace => some .space
  | .nonWhiteSpace => some .nonSpace
  | _ => none

/-- Only one leaf stands for the characters that are no digits. -/
theorem shorthand?_eq_nonDigit {kind : Token} :
    kind.shorthand? = some .nonDigit ↔ kind = .nonDigit := by
  cases kind <;> simp [Token.shorthand?]

/-- The usual spelling of a leaf spells the class that it stands for. -/
theorem ofText?_tokenText (kind : Token) :
    Alphabet.Shorthand.ofText? (Node.tokenText kind) = kind.shorthand? := by
  cases kind <;> decide

end PatternSampler
