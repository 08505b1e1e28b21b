import PatternSampler.Proofs.Draws

/-!
# What a numeral denotes

`Numeral.Denotes` says which number a text stands for in a base, by the sum that its digits make.
`read_eq_ok_iff` shows that reading finds that number whenever it is within the bound: the value
only grows from digit to digit, so a number within the bound has no prefix beyond it. It follows
which character a numeric escape gives (`escaped_eq_ok_iff`).
-/

namespace PatternSampler

namespace Numeral

/-- The number that digits make behind a number that is already there. -/
def extend (base : Nat) (n : Nat) (digits : List Nat) : Nat :=
  digits.foldl (fun n d => n * base + d) n

/-- Characters spell digits of a base. -/
def Spells (base : Nat) (cs : List Char) (digits : List Nat) : Prop :=
  cs.map (digitIn? base) = digits.map some

/-- A text denotes a number if it is made up of an optional sign and of digits, at least one, that
make the number. -/
def Denotes (base : Nat) (text : String) (n : Nat) : Prop :=
  ∃ (cs : List Char) (digits : List Nat), (text.toList = cs ∨ text.toList = '+' :: cs) ∧
    Spells base cs digits ∧ digits ≠ [] ∧ n = extend base 0 digits

/-- Digits make a number no smaller. -/
theorem le_extend {base : Nat} (hb : 0 < base) (n : Nat) (digits : List Nat) :
    n ≤ extend base n digits := by
  induction digits generalizing n with
  | nil => exact Nat.le_refl n
  | cons d ds ih =>
    calc n ≤ n * base := Nat.le_mul_of_pos_right n hb
      _ ≤ n * base + d := Nat.le_add_right _ _
      _ ≤ extend base n (d :: ds) := ih _

/-- No characters spell no digits. -/
@[simp] theorem spells_nil {base : Nat} {digits : List Nat} :
    Spells base [] digits ↔ digits = [] := by
  rw [Spells, List.map_nil, eq_comm, List.map_eq_nil_iff]

/-- The first character spells the first digit. -/
theorem spells_cons {base : Nat} {c : Char} {cs : List Char} {digits : List Nat} :
    Spells base (c :: cs) digits ↔
      ∃ d ds, digits = d :: ds ∧ digitIn? base c = some d ∧ Spells base cs ds := by
  cases digits with
  | nil => simp [Spells]
  | cons d ds => simp [Spells, and_assoc]

/-- A sign spells no digit. -/
theorem not_spells_plus {base : Nat} {cs : List Char} {digits : List Nat} :
    ¬ Spells base ('+' :: cs) digits := by
  intro h
  obtain ⟨d, ds, -, hd, -⟩ := spells_cons.mp h
  cases hd

/-- The digits that are read make the number, if it is within the bound. -/
theorem accumulate_eq_ok_iff {base bound : Nat} (hb : 0 < base) {m n : Nat} (hm : m ≤ bound)
    {cs : List Char} :
    accumulate base bound m cs = .ok n ↔
      ∃ digits, Spells base cs digits ∧ n = extend base m digits ∧ n ≤ bound := by
  induction cs generalizing m with
  | nil =>
    constructor
    · intro h
      cases h
      exact ⟨[], spells_nil.mpr rfl, rfl, hm⟩
    · rintro ⟨digits, hd, rfl, -⟩
      rw [spells_nil.mp hd]
      rfl
  | cons c cs ih =>
    unfold accumulate
    simp only [spells_cons]
    cases hc : digitIn? base c with
    | none =>
      constructor
      · nofun
      · rintro ⟨_, ⟨_, _, -, h, -⟩, -⟩
        cases h
    | some d =>
      dsimp only
      split
      · next hle =>
        rw [ih hle]
        constructor
        · rintro ⟨ds, hd, hn⟩
          exact ⟨d :: ds, ⟨d, ds, rfl, rfl, hd⟩, hn⟩
        · rintro ⟨_, ⟨_, ds, rfl, h, hd⟩, hn⟩
          cases h
          exact ⟨ds, hd, hn⟩
      · next hlt =>
        -- The value is beyond the bound, and more digits do not bring it back.
        constructor
        · nofun
        · rintro ⟨_, ⟨_, ds, rfl, h, -⟩, rfl, hn⟩
          cases h
          exact absurd (Nat.le_trans (le_extend hb _ ds) hn) hlt

/-- Reading digits, at least one, finds the number that they make. -/
theorem accumulate_digits {base bound : Nat} (hb : 0 < base) {n : Nat} {cs : List Char}
    (hcs : cs ≠ []) :
    accumulate base bound 0 cs = .ok n ↔
      (∃ digits, Spells base cs digits ∧ digits ≠ [] ∧ n = extend base 0 digits) ∧ n ≤ bound := by
  rw [accumulate_eq_ok_iff hb (Nat.zero_le _)]
  constructor
  · rintro ⟨digits, hd, hn, hle⟩
    refine ⟨⟨digits, hd, ?_, hn⟩, hle⟩
    rintro rfl
    exact hcs (List.map_eq_nil_iff.mp hd)
  · rintro ⟨⟨digits, hd, -, hn⟩, hle⟩
    exact ⟨digits, hd, hn, hle⟩

/-- Reading finds the number that a text denotes, if it is within the bound. -/
theorem read_eq_ok_iff {base bound : Nat} (hb : 0 < base) {text : String} {n : Nat} :
    read base bound text = .ok n ↔ Denotes base text n ∧ n ≤ bound := by
  unfold read Denotes
  split
  · next h =>
    simp [h]
  · next h =>
    -- The text is a sign without digits.
    simp only [h, reduceCtorEq, false_iff]
    rintro ⟨⟨cs, digits, rfl | h, hd, hne, -⟩, -⟩
    · exact not_spells_plus hd
    · cases h
      exact hne (spells_nil.mp hd)
  · next cs hcs h =>
    -- The text has a sign. It is no digit, so the digits are those behind it.
    rw [accumulate_digits hb (fun h => hcs (h ▸ rfl)), h]
    refine and_congr_left fun _ => ⟨?_, ?_⟩
    · rintro ⟨digits, hd⟩
      exact ⟨cs, digits, .inr rfl, hd⟩
    · rintro ⟨cs', digits, rfl | hcs', hd⟩
      · exact absurd hd.1 not_spells_plus
      · cases hcs'
        exact ⟨digits, hd⟩
  · next hne hplus hsigned =>
    -- The text has no sign, so all of it is digits.
    rw [accumulate_digits hb hne]
    refine and_congr_left fun _ => ⟨?_, ?_⟩
    · rintro ⟨digits, hd⟩
      exact ⟨_, digits, .inl rfl, hd⟩
    · rintro ⟨cs', digits, rfl | hcs', hd⟩
      · exact ⟨digits, hd⟩
      · exact absurd hcs' (hsigned cs')

end Numeral

/-- A numeric escape gives the character whose code point its code denotes. -/
theorem escaped_eq_ok_iff {offset : UInt64} {form : EscapeForm} {code : String} {c : Char} :
    escaped offset form code = .ok c ↔ Numeral.Denotes form.base code c.toNat := by
  have hb : 0 < form.base := by cases form <;> decide
  unfold escaped
  constructor
  · intro h
    split at h
    · next n hn =>
      obtain ⟨hd, hle⟩ := (Numeral.read_eq_ok_iff hb).mp hn
      have hc := Sampler.scalar_eq_ok_iff.mp h
      have : c.toNat = n := by
        rw [← Char.toNat_val, hc, toNat_ofNat_word hle]
      rwa [this]
    · cases h
  · intro h
    have hle : c.toNat ≤ Numeral.max32 := by
      have := c.val.toNat_lt
      rw [Char.toNat_val] at this
      exact Nat.le_of_lt_succ this
    rw [(Numeral.read_eq_ok_iff hb).mpr ⟨h, hle⟩]
    refine Sampler.scalar_eq_ok_iff.mpr (UInt32.toNat_inj.mp ?_)
    rw [toNat_ofNat_word hle]
    rfl

end PatternSampler
