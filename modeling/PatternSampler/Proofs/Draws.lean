import PatternSampler.Proofs.Possible
import PatternSampler.Sample.Emit

/-!
# What single choices may give

The values that each kind of choice may give, in numbers without a width: integers within bounds,
places in a list, elements of it, counts that a quantifier allows, and characters of a range.
-/

namespace PatternSampler

/-- A number of thirty-two bits is kept by a word. -/
theorem toNat_ofNat_word {n : Nat} (h : n ≤ 0xFFFFFFFF) : (UInt32.ofNat n).toNat = n :=
  UInt32.toNat_ofNat_of_lt' (Nat.lt_succ_of_le h)

namespace Sampler

variable {α : Type}

/-- Either side may be taken. -/
@[simp] theorem mayGive_boolean {b : Bool} : boolean.MayGive b :=
  ⟨b, trivial, rfl⟩

/-- Any integer within bounds may be given. -/
theorem mayGive_integer {least most n : UInt32} (h : least ≤ most) :
    (integer least most).MayGive n ↔ least ≤ n ∧ n ≤ most := by
  constructor
  · rintro ⟨a, ha, rfl⟩
    exact ha h
  · intro hn
    exact ⟨n, fun _ => hn, rfl⟩

/-- Any printable ASCII character may be given. -/
theorem mayGive_character {c : Char} :
    character.MayGive c ↔ 0x20 ≤ c.toNat ∧ c.toNat ≤ 0x7E := by
  constructor
  · rintro ⟨a, ha, rfl⟩
    exact ha
  · intro hc
    exact ⟨c, hc, rfl⟩

/-- A computation that asks for nothing gives its value. -/
@[simp] theorem mayGive_ofExcept {x : Except SampleError α} {a : α} :
    (ofExcept x).MayGive a ↔ x = .ok a := by
  cases x with
  | ok b => exact ⟨fun h => congrArg _ (Eq.symm h), fun h => by cases h; rfl⟩
  | error e => exact ⟨False.elim, nofun⟩

/-- Any index may be given, if there are not too many of them. -/
theorem mayGive_index {n i : Nat} :
    (index n).MayGive (some i) ↔ i < n ∧ n ≤ 0xFFFFFFFF := by
  unfold index
  split
  · next h =>
    have hlast : (UInt32.ofNat (n - 1)).toNat = n - 1 := toNat_ofNat_word (by omega)
    have h0 : (0 : UInt32) ≤ UInt32.ofNat (n - 1) := UInt32.zero_le
    -- The word that is asked for goes from zero to the last index.
    simp only [mayGive_bind, mayGive_integer h0, mayGive_pure, Option.some.injEq,
      UInt32.le_iff_toNat_le, hlast]
    constructor
    · rintro ⟨v, ⟨-, hv⟩, rfl⟩
      omega
    · intro hi
      have hv : (UInt32.ofNat i).toNat = i := toNat_ofNat_word (by omega)
      exact ⟨UInt32.ofNat i, ⟨by simp, by omega⟩, hv.symm⟩
  · next h =>
    -- Nothing is asked for, and no index is given.
    simp only [mayGive_pure, reduceCtorEq, false_iff]
    omega

/-- Any character of a pool may be picked, if the pool is not too large. -/
theorem mayGive_pickChar {offset : UInt64} {pool : List Char} {c : Char} :
    (pickChar offset pool).MayGive c ↔ c ∈ pool ∧ pool.length ≤ 0xFFFFFFFF := by
  simp only [pickChar, pick, bind_assoc, pure_bind, mayGive_bind, List.mem_iff_getElem?]
  constructor
  · rintro ⟨i, hi, h⟩
    cases i with
    | none => exact h.elim
    | some i =>
      obtain ⟨hlt, hlen⟩ := mayGive_index.mp hi
      rw [Option.bind_some, List.getElem?_eq_getElem hlt] at h
      exact ⟨⟨i, h ▸ List.getElem?_eq_getElem hlt⟩, hlen⟩
  · rintro ⟨⟨i, hi⟩, hlen⟩
    have hlt : i < pool.length := (List.getElem?_eq_some_iff.mp hi).1
    refine ⟨some i, mayGive_index.mpr ⟨hlt, hlen⟩, ?_⟩
    rw [Option.bind_some, hi]
    rfl

/-- Any count within bounds may be given, if it fits into a word. -/
theorem mayGive_countWithin {offset : UInt64} {least most : Int} {n : Nat} (h : 0 ≤ least) :
    (countWithin offset least most).MayGive n ↔ least ≤ n ∧ n ≤ most ∧ most ≤ maxCount := by
  unfold countWithin
  split
  · next hb =>
    -- Both bounds fit into a word, which keeps their order.
    have hmost : most ≤ 0xFFFFFFFF := hb.2
    have hl : (UInt32.ofNat least.toNat).toNat = least.toNat := toNat_ofNat_word (by omega)
    have hm : (UInt32.ofNat most.toNat).toNat = most.toNat := toNat_ofNat_word (by omega)
    have hle : UInt32.ofNat least.toNat ≤ UInt32.ofNat most.toNat := by
      rw [UInt32.le_iff_toNat_le]
      omega
    simp only [mayGive_bind, mayGive_integer hle, mayGive_pure, UInt32.le_iff_toNat_le, hl, hm]
    constructor
    · rintro ⟨v, hv, rfl⟩
      omega
    · intro hn
      have hv : (UInt32.ofNat n).toNat = n := toNat_ofNat_word (by omega)
      exact ⟨UInt32.ofNat n, by omega, hv.symm⟩
  · next hb =>
    rw [mayGive_fail, false_iff]
    omega

end Sampler

/-- The counts that a quantifier allows. Where it has no upper bound, its least count is exceeded by
at most as much as the limits say. A node of another kind allows none. -/
def Node.Counts (cfg : Config) : Node → Nat → Prop
  | .quantifier _ bounds _, n =>
    let least := max bounds.min.toInt 0
    match bounds.max with
    | some most => least ≤ n ∧ n ≤ most.toInt ∧ most.toInt ≤ 0xFFFFFFFF
    | none =>
      ∃ extra : Nat, min cfg.extraFrom.toNat cfg.extraTo.toNat ≤ extra ∧
        extra ≤ max cfg.extraFrom.toNat cfg.extraTo.toNat ∧
        least ≤ n ∧ n ≤ least + extra ∧ least + extra ≤ 0xFFFFFFFF
  | _, _ => False

namespace Config

/-- The fewest extra repetitions are the smaller end of the two. -/
theorem toNat_leastExtra (cfg : Config) :
    cfg.leastExtra.toNat = min cfg.extraFrom.toNat cfg.extraTo.toNat := by
  have h : cfg.leastExtra =
      if cfg.extraFrom ≤ cfg.extraTo then cfg.extraFrom else cfg.extraTo := rfl
  simp only [h, UInt32.le_iff_toNat_le]
  split <;> omega

/-- The most extra repetitions are the larger end of the two. -/
theorem toNat_mostExtra (cfg : Config) :
    cfg.mostExtra.toNat = max cfg.extraFrom.toNat cfg.extraTo.toNat := by
  have h : cfg.mostExtra =
      if cfg.extraFrom ≤ cfg.extraTo then cfg.extraTo else cfg.extraFrom := rfl
  simp only [h, UInt32.le_iff_toNat_le]
  split <;> omega

/-- The fewest extra repetitions are no more than the most. -/
theorem leastExtra_le_mostExtra (cfg : Config) : cfg.leastExtra ≤ cfg.mostExtra := by
  rw [UInt32.le_iff_toNat_le, toNat_leastExtra, toNat_mostExtra]
  omega

end Config

namespace Sampler

/-- Any count that a quantifier allows may be given, and no other. -/
theorem mayGive_count {cfg : Config} {quantifier : Node} {n : Nat} :
    (count cfg quantifier).MayGive n ↔ quantifier.Counts cfg n := by
  cases quantifier with
  | quantifier mark bounds greedy =>
    have hleast : 0 ≤ max bounds.min.toInt 0 := Int.le_max_right _ _
    simp only [count, Node.Counts]
    cases bounds.max with
    | some most => exact mayGive_countWithin hleast
    | none =>
      simp only [mayGive_bind, mayGive_integer cfg.leastExtra_le_mostExtra,
        UInt32.le_iff_toNat_le, cfg.toNat_leastExtra, cfg.toNat_mostExtra]
      constructor
      · rintro ⟨extra, hextra, h⟩
        refine ⟨extra.toNat, hextra.1, hextra.2, ?_⟩
        split at h
        · exact h.elim
        · exact (mayGive_countWithin hleast).mp h
      · rintro ⟨extra, h₁, h₂, h⟩
        have hword : (UInt32.ofNat extra).toNat = extra := toNat_ofNat_word (by omega)
        -- A sum that fits into a word is far below the bound that would end the sample.
        refine ⟨UInt32.ofNat extra, by omega, ?_⟩
        rw [hword, if_neg (by simp only [maxBound]; omega)]
        exact (mayGive_countWithin hleast).mpr h
  | _ => simp [count, Node.Counts]

/-- The code points that may be given for a range are those of the characters in it. -/
theorem mayGive_between {first last : Char} (h : first ≤ last) {v : UInt32} :
    (between first last).MayGive v ↔ first.val ≤ v ∧ v ≤ last.val ∧ v.isValidChar := by
  have hfirst : first.val.toNat.isValidChar := first.valid
  have hlast : last.val.toNat.isValidChar := last.valid
  have hle : first.val.toNat ≤ last.val.toNat := UInt32.le_iff_toNat_le.mp h
  have hs : surrogateCount.toNat = 0x800 := rfl
  simp only [Nat.isValidChar] at hfirst hlast
  unfold between
  simp only [UInt32.lt_iff_toNat_lt, UInt32.le_iff_toNat_le, UInt32.isValidChar, Nat.isValidChar,
    show lastSurrogate.toNat = 0xDFFF from rfl, show firstSurrogate.toNat = 0xD800 from rfl]
  split
  · next hside =>
    -- Both ends lie on the same side of the surrogates.
    rw [mayGive_integer h]
    simp only [UInt32.le_iff_toNat_le]
    omega
  · next hside =>
    -- The surrogates lie between the ends. They are left out of the interval that is asked for, and
    -- an answer that reaches them is moved behind them.
    have hshift : (last.val - surrogateCount).toNat = last.val.toNat - 0x800 := by
      rw [UInt32.toNat_sub_of_le _ _ (UInt32.le_iff_toNat_le.mpr (by omega)), hs]
    have hle' : first.val ≤ last.val - surrogateCount := by
      rw [UInt32.le_iff_toNat_le, hshift]
      omega
    simp only [mayGive_bind, mayGive_integer hle', mayGive_pure, UInt32.le_iff_toNat_le, hshift]
    constructor
    · rintro ⟨w, hw, rfl⟩
      split
      · have hsum : (w + surrogateCount).toNat = w.toNat + 0x800 := by
          rw [UInt32.toNat_add, hs]
          omega
        omega
      · omega
    · rintro ⟨h₁, h₂, hv⟩
      rcases hv with hv | hv
      · exact ⟨v, by omega, by rw [if_neg (by omega)]⟩
      · -- A code point behind the surrogates comes from an answer that was moved.
        have hback : (v - surrogateCount).toNat = v.toNat - 0x800 := by
          rw [UInt32.toNat_sub_of_le _ _ (UInt32.le_iff_toNat_le.mpr (by omega)), hs]
        refine ⟨v - surrogateCount, by omega, ?_⟩
        rw [if_pos (by omega), UInt32.sub_add_cancel]

/-- A code point that is a character's gives that character. -/
theorem scalar_eq_ok_iff {offset : UInt64} {v : UInt32} {c : Char} :
    scalar offset v = .ok c ↔ c.val = v := by
  unfold scalar
  split
  · next h => exact ⟨fun hc => by cases hc; rfl, fun hc => by subst hc; rfl⟩
  · next h => exact ⟨nofun, fun hc => absurd (hc ▸ c.valid) h⟩

/-- Any character between two others may be given for their range. -/
theorem mayGive_between_scalar {first last c : Char} (h : first ≤ last) {offset : UInt64} :
    (between first last >>= fun v => ofExcept (scalar offset v)).MayGive c ↔
      first ≤ c ∧ c ≤ last := by
  simp only [mayGive_bind, mayGive_between h, mayGive_ofExcept, scalar_eq_ok_iff]
  constructor
  · rintro ⟨v, hv, rfl⟩
    exact ⟨hv.1, hv.2.1⟩
  · rintro ⟨h₁, h₂⟩
    exact ⟨c.val, ⟨h₁, h₂, c.valid⟩, rfl⟩

end Sampler

end PatternSampler
