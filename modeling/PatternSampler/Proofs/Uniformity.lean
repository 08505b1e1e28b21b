import Mathlib.Algebra.BigOperators.Group.Finset.Basic
import Mathlib.Algebra.Order.Floor.Div
import Mathlib.Data.Set.Card
import Mathlib.Order.Interval.Finset.Nat
import PatternSampler.Choice.Uniform
import PatternSampler.Proofs.Draws

/-!
# Uniform draws favour no value

A draw gives the value of the first word of a stream that has one (`FirstAt.draw_eq`), so what it
gives is settled by what single words stand for. `GivesEvenly` says that each of some values is what
equally many words stand for, and that no word stands for anything else.

A word stands for a value when its product with the range lies in an interval that starts at a
multiple of `2 ^ 32` (`accept_eq_some_iff`). Where the zone makes the length of that interval a
multiple of the range, it holds equally many products, wherever it starts (`ncard_accept`). The zone
for integers does so because the range is shifted by its leading zeros, and none of its digits is
lost (`toNat_integerZone`); the zone for characters because their number divides what lies below it.
`source_unbiased` puts this together for the source that draws from a stream of words.
-/

namespace PatternSampler

namespace WordStream

variable {σ α : Type}

/-- The state behind some words of a stream. -/
def after (words : WordStream σ) (k : Nat) (s : σ) : σ :=
  (fun s => (words.next s).2)^[k] s

/-- The word of a stream behind some others. -/
def word (words : WordStream σ) (k : Nat) (s : σ) : UInt32 :=
  (words.next (words.after k s)).1

/-- The first word of a stream that has a value comes behind `k` others, and this is its value. -/
structure FirstAt (words : WordStream σ) (value? : UInt32 → Option α) (s : σ) (k : Nat) (a : α) :
    Prop where
  none_before : ∀ j < k, value? (words.word j s) = none
  some_here : value? (words.word k s) = some a

variable {words : WordStream σ} {value? : UInt32 → Option α} {fallback a : α} {s : σ}

/-- A search ends with its first step, or goes on behind it. -/
theorem search_eq (words : WordStream σ) (accepts : UInt32 → Bool) (s : σ) :
    words.search accepts s = (words.searchStep accepts s).elim (words.search accepts) id := by
  have hsome : Nonempty (UInt32 × σ) := ⟨words.next s⟩
  unfold search
  dsimp only
  rw [repeatM_eq_of_monadTail]
  unfold repeatM.body
  rw [pure_bind]
  cases words.searchStep accepts s with
  | inl s => rfl
  | inr r => rfl

/-- A word that is accepted ends the search. -/
theorem search_of_accepted {accepts : UInt32 → Bool} (h : accepts (words.next s).1) :
    words.search accepts s = words.next s := by
  have hstep : words.searchStep accepts s = .inr (words.next s) := if_pos h
  rw [search_eq, hstep, Sum.elim_inr, id]

/-- A word that is not accepted is followed by the next one. -/
theorem search_of_rejected {accepts : UInt32 → Bool} (h : ¬accepts (words.next s).1) :
    words.search accepts s = words.search accepts (words.next s).2 := by
  have hstep : words.searchStep accepts s = .inl (words.next s).2 := if_neg h
  rw [search_eq, hstep, Sum.elim_inl]

/-- What is drawn is the value of a word, or the fallback. -/
theorem draw_fst (words : WordStream σ) (value? : UInt32 → Option α) (fallback : α) (s : σ) :
    ∃ word, (words.draw value? fallback s).1 = (value? word).getD fallback :=
  ⟨(words.search (fun word => (value? word).isSome) s).1, rfl⟩

/-- A word with a value ends a draw. -/
theorem draw_of_some (h : value? (words.next s).1 = some a) :
    words.draw value? fallback s = (a, (words.next s).2) := by
  have hsearch : words.search (fun word => (value? word).isSome) s = words.next s :=
    search_of_accepted (Option.isSome_of_eq_some h)
  unfold draw
  rw [hsearch]
  dsimp only
  rw [h, Option.getD_some]

/-- A word without a value is followed by the next one. -/
theorem draw_of_none (h : value? (words.next s).1 = none) :
    words.draw value? fallback s = words.draw value? fallback (words.next s).2 := by
  have hsearch : words.search (fun word => (value? word).isSome) s =
      words.search (fun word => (value? word).isSome) (words.next s).2 :=
    search_of_rejected (Option.not_isSome_iff_eq_none.mpr h)
  unfold draw
  rw [hsearch]

/-- What is drawn is the value of the first word that has one, and the words behind it are left. -/
theorem FirstAt.draw_eq {k : Nat} (h : words.FirstAt value? s k a) :
    words.draw value? fallback s = (a, words.after (k + 1) s) := by
  induction k generalizing s with
  | zero => exact draw_of_some h.some_here
  | succ k ih =>
    have hnone : value? (words.next s).1 = none := h.none_before 0 (Nat.zero_lt_succ k)
    have hrest : words.FirstAt value? (words.next s).2 k a :=
      ⟨fun j hj => h.none_before (j + 1) (Nat.succ_lt_succ hj), h.some_here⟩
    rw [draw_of_none hnone]
    exact ih hrest

end WordStream

/-- There are finitely many words. -/
theorem finite_words (S : Set UInt32) : S.Finite := by
  have hfinite : Finite UInt32 := Finite.of_injective UInt32.toFin fun _ _ => UInt32.toFin_inj.mp
  exact Set.toFinite S

/-- As many words have a number in a set as the set has numbers, if all of them are words. -/
theorem ncard_toNat_mem {S : Finset Nat} (hS : ∀ n ∈ S, n < 2 ^ 32) :
    {w : UInt32 | w.toNat ∈ S}.ncard = S.card := by
  have hinj : Function.Injective UInt32.toNat := fun _ _ => UInt32.toNat_inj.mp
  have himage : UInt32.toNat '' {w : UInt32 | w.toNat ∈ S} = S := by
    ext n
    constructor
    · rintro ⟨w, hw, rfl⟩
      exact hw
    · intro hn
      have hword : (UInt32.ofNat n).toNat = n := UInt32.toNat_ofNat_of_lt' (hS n hn)
      have hmem : (UInt32.ofNat n).toNat ∈ S := by rwa [hword]
      exact ⟨UInt32.ofNat n, hmem, hword⟩
  calc {w : UInt32 | w.toNat ∈ S}.ncard
    _ = (UInt32.toNat '' {w : UInt32 | w.toNat ∈ S}).ncard :=
      (Set.ncard_image_of_injective _ hinj).symm
    _ = S.card := by rw [himage, Set.ncard_coe_finset]

namespace Uniform

/-- Words stand for some values evenly if each word that stands for anything stands for one of them,
and each of them is what equally many words stand for. -/
structure GivesEvenly {α : Type} (value? : UInt32 → Option α) (values : Set α) (copies : Nat) :
    Prop where
  mem_values : ∀ w a, value? w = some a → a ∈ values
  ncard_eq : ∀ a ∈ values, {w | value? w = some a}.ncard = copies

/-- As many words stand for anything as there are values, each counted as often as it is given. -/
theorem GivesEvenly.ncard_isSome {α : Type} {value? : UInt32 → Option α} {values : Set α}
    {copies : Nat} (h : GivesEvenly value? values copies) (hvalues : values.Finite) :
    {w | (value? w).isSome}.ncard = values.ncard * copies := by
  classical
  have hcard (S : Set UInt32) : S.ncard = (finite_words S).toFinset.card :=
    Set.ncard_eq_toFinset_card S (finite_words S)
  let accepted : Finset UInt32 := (finite_words {w | (value? w).isSome}).toFinset
  have haccepted (w : UInt32) : w ∈ accepted ↔ (value? w).isSome := Set.Finite.mem_toFinset _
  -- Accepted words are sorted by what they stand for.
  have hsome : Set.MapsTo value? accepted (hvalues.toFinset.map Function.Embedding.some) := by
    intro w hw
    obtain ⟨a, ha⟩ := Option.isSome_iff_exists.mp ((haccepted w).mp hw)
    have hmem : a ∈ hvalues.toFinset := hvalues.mem_toFinset.mpr (h.mem_values w a ha)
    rw [ha]
    exact Finset.mem_coe.mpr (Finset.mem_map_of_mem Function.Embedding.some hmem)
  have hfibre (a : α) (ha : a ∈ hvalues.toFinset) :
      {w ∈ accepted | value? w = some a}.card = copies := by
    rw [← h.ncard_eq a (hvalues.mem_toFinset.mp ha), hcard]
    congr 1
    ext w
    rw [Finset.mem_filter, haccepted, Set.Finite.mem_toFinset]
    exact and_iff_right_of_imp fun hw => Option.isSome_iff_exists.mpr ⟨a, hw⟩
  calc {w | (value? w).isSome}.ncard
    _ = accepted.card := hcard _
    _ = ∑ x ∈ hvalues.toFinset.map Function.Embedding.some, {w ∈ accepted | value? w = x}.card :=
      Finset.card_eq_sum_card_fiberwise hsome
    _ = ∑ a ∈ hvalues.toFinset, {w ∈ accepted | value? w = some a}.card := Finset.sum_map _ _ _
    _ = ∑ a ∈ hvalues.toFinset, copies := Finset.sum_congr rfl hfibre
    _ = values.ncard * copies := by
      rw [Finset.sum_const, smul_eq_mul, Set.ncard_eq_toFinset_card values hvalues]

/-- A word stands for a value if its product with the range lies in an interval that starts at a
multiple of `2 ^ 32` and is as long as the zone says. -/
theorem accept_eq_some_iff {range zone word value : UInt32} :
    accept range zone word = some value ↔
      value.toNat * 2 ^ 32 ≤ word.toNat * range.toNat ∧
        word.toNat * range.toNat < value.toNat * 2 ^ 32 + (zone.toNat + 1) := by
  have hzone := zone.toNat_lt
  -- The product of two words is not cut off.
  have hproduct : word.toNat * range.toNat < 2 ^ 32 * 2 ^ 32 :=
    Nat.mul_lt_mul'' word.toNat_lt range.toNat_lt
  have htoNat : (word.toUInt64 * range.toUInt64).toNat = word.toNat * range.toNat := by
    rw [UInt64.toNat_mul, UInt32.toNat_toUInt64, UInt32.toNat_toUInt64]
    exact Nat.mod_eq_of_lt hproduct
  have hlow : (word.toUInt64 * range.toUInt64).toUInt32.toNat =
      word.toNat * range.toNat % 2 ^ 32 := by
    rw [UInt64.toNat_toUInt32, htoNat]
  have hhigh : ((word.toUInt64 * range.toUInt64) >>> 32).toUInt32.toNat =
      word.toNat * range.toNat / 2 ^ 32 := by
    have h32 : (32 : UInt64).toNat % 64 = 32 := rfl
    rw [UInt64.toNat_toUInt32, UInt64.toNat_shiftRight, h32, htoNat, Nat.shiftRight_eq_div_pow]
    omega
  unfold accept
  dsimp only
  generalize word.toNat * range.toNat = product at *
  split
  · next hle =>
    rw [UInt32.le_iff_toNat_le, hlow] at hle
    rw [Option.some.injEq, ← UInt32.toNat_inj, hhigh]
    omega
  · next hlt =>
    rw [UInt32.le_iff_toNat_le, hlow] at hlt
    simp only [reduceCtorEq, false_iff]
    omega

/-- The values of accepted words are less than the range, if that is some. -/
theorem lt_of_accept {range zone word value : UInt32} (hrange : range ≠ 0)
    (h : accept range zone word = some value) : value < range := by
  obtain ⟨hle, -⟩ := accept_eq_some_iff.mp h
  have hpos : 0 < range.toNat := UInt32.lt_iff_toNat_lt.mp (UInt32.pos_iff_ne_zero.mpr hrange)
  have hlt : word.toNat * range.toNat < 2 ^ 32 * range.toNat :=
    Nat.mul_lt_mul_of_pos_right word.toNat_lt hpos
  rw [UInt32.lt_iff_toNat_lt]
  omega

/-- In an interval whose length is a multiple of a number there are that many multiples of it,
wherever the interval starts. -/
theorem mul_mem_Ico_iff {r m a w : Nat} (hr : 0 < r) :
    a ≤ w * r ∧ w * r < a + r * m ↔ w ∈ Finset.Ico (a ⌈/⌉ r) (a ⌈/⌉ r + m) := by
  have hleast (n : Nat) : a ⌈/⌉ r ≤ n ↔ a ≤ r * n := ceilDiv_le_iff_le_mul hr
  rw [Finset.mem_Ico, hleast, Nat.mul_comm w r]
  refine and_congr_right fun hle => ?_
  by_cases hm : m ≤ w
  · -- A multiple is in the interval if the one `m` steps before it is below its start.
    have hback : r * (w - m) + r * m = r * w := by
      rw [← Nat.mul_add, Nat.sub_add_cancel hm]
    have := hleast (w - m)
    omega
  · have hlt : r * w < r * m := Nat.mul_lt_mul_of_pos_left (Nat.lt_of_not_le hm) hr
    omega

/-- Where the zone is a multiple of the range, every value is what equally many words stand for. -/
theorem ncard_accept {range zone value : UInt32} {m : Nat} (hrange : range ≠ 0)
    (hzone : zone.toNat + 1 = range.toNat * m) (hvalue : value < range) :
    {w | accept range zone w = some value}.ncard = m := by
  have hpos : 0 < range.toNat := UInt32.lt_iff_toNat_lt.mp (UInt32.pos_iff_ne_zero.mpr hrange)
  have hlt := zone.toNat_lt
  have hset : {w | accept range zone w = some value} =
      {w : UInt32 | w.toNat ∈ Finset.Ico (value.toNat * 2 ^ 32 ⌈/⌉ range.toNat)
        (value.toNat * 2 ^ 32 ⌈/⌉ range.toNat + m)} := by
    ext w
    exact accept_eq_some_iff.trans (by rw [hzone]; exact mul_mem_Ico_iff hpos)
  rw [hset, ncard_toNat_mem, Nat.card_Ico, Nat.add_sub_cancel_left]
  -- The last of the intervals ends at most where the products of words end.
  intro n hn
  obtain ⟨-, hn⟩ := (mul_mem_Ico_iff hpos).mpr hn
  have hstep : (value.toNat + 1) * 2 ^ 32 ≤ range.toNat * 2 ^ 32 :=
    Nat.mul_le_mul_right _ (UInt32.lt_iff_toNat_lt.mp hvalue)
  refine Nat.lt_of_mul_lt_mul_right (a := range.toNat) ?_
  omega

/-- A word that is some has its first one behind its leading zeros. -/
theorem clz_lt {range : UInt32} (hrange : range ≠ 0) : range.toBitVec.clz.toNat < 32 := by
  have hne : range.toBitVec ≠ 0 := fun h => hrange (UInt32.toBitVec_inj.mp h)
  have hlt := BitVec.lt_def.mp (BitVec.clz_lt_iff_ne_zero.mpr hne)
  exact hlt

/-- The zone for integers is a multiple of the range, for no digit of the range is lost when it is
shifted by its leading zeros. -/
theorem toNat_integerZone {range : UInt32} (hrange : range ≠ 0) :
    (integerZone range).toNat + 1 = range.toNat * 2 ^ range.toBitVec.clz.toNat := by
  have hpos : 0 < range.toNat := UInt32.lt_iff_toNat_lt.mp (UInt32.pos_iff_ne_zero.mpr hrange)
  have hclz := clz_lt hrange
  have hdigits : range.toNat < 2 ^ (32 - range.toBitVec.clz.toNat) :=
    BitVec.toNat_lt_two_pow_sub_clz
  have hshifted : (leadingZeros range).toNat = range.toBitVec.clz.toNat := rfl
  generalize range.toBitVec.clz.toNat = z at *
  have hfits : range.toNat * 2 ^ z < 2 ^ 32 :=
    calc range.toNat * 2 ^ z
      _ < 2 ^ (32 - z) * 2 ^ z := Nat.mul_lt_mul_of_pos_right hdigits (Nat.two_pow_pos z)
      _ = 2 ^ 32 := by rw [← Nat.pow_add, Nat.sub_add_cancel (Nat.le_of_lt hclz)]
  have hsome : 0 < range.toNat * 2 ^ z := Nat.mul_pos hpos (Nat.two_pow_pos z)
  have hshift : (range <<< leadingZeros range).toNat = range.toNat * 2 ^ z := by
    rw [UInt32.toNat_shiftLeft, hshifted, Nat.mod_eq_of_lt hclz, Nat.shiftLeft_eq,
      Nat.mod_eq_of_lt hfits]
  have hone : (1 : UInt32).toNat = 1 := rfl
  have hle : 1 ≤ range <<< leadingZeros range := by
    rw [UInt32.le_iff_toNat_le, hshift]
    exact hsome
  rw [integerZone, UInt32.toNat_sub_of_le _ _ hle, hshift, hone]
  exact Nat.sub_add_cancel hsome

/-- A range shifted by its leading zeros takes up half of all words or more. -/
theorem half_le_shifted {range : UInt32} (hrange : range ≠ 0) :
    2 ^ 31 ≤ range.toNat * 2 ^ range.toBitVec.clz.toNat := by
  have hne : range.toBitVec ≠ 0 := fun h => hrange (UInt32.toBitVec_inj.mp h)
  have hclz := clz_lt hrange
  have hfirst : 2 ^ (32 - 1 - range.toBitVec.clz.toNat) ≤ range.toNat :=
    BitVec.two_pow_sub_clz_le_toNat_of_ne_zero (by decide) hne
  generalize range.toBitVec.clz.toNat = z at *
  calc 2 ^ 31
    _ = 2 ^ (32 - 1 - z) * 2 ^ z := by rw [← Nat.pow_add, Nat.sub_add_cancel (by omega)]
    _ ≤ range.toNat * 2 ^ z := Nat.mul_le_mul_right _ hfirst

section Integers

variable {least most : UInt32}

/-- The integers within bounds. -/
def within (least most : UInt32) : Set UInt32 := { n | least ≤ n ∧ n ≤ most }

/-- Bounds that leave nothing out. -/
def LeavesNothingOut (least most : UInt32) : Prop := least = 0 ∧ most = 0xFFFFFFFF

instance (least most : UInt32) : Decidable (LeavesNothingOut least most) :=
  inferInstanceAs (Decidable (_ ∧ _))

/-- How many words stand for each integer within bounds. -/
def copies (least most : UInt32) : Nat :=
  if LeavesNothingOut least most then 1 else 2 ^ (most - least + 1).toBitVec.clz.toNat

/-- There are as many integers within bounds as their difference says, and one more. -/
theorem ncard_within (h : least ≤ most) :
    (within least most).ncard = most.toNat - least.toNat + 1 := by
  have hle : least.toNat ≤ most.toNat := UInt32.le_iff_toNat_le.mp h
  have hset : within least most =
      {w : UInt32 | w.toNat ∈ Finset.Icc least.toNat most.toNat} := by
    ext w
    exact (and_congr UInt32.le_iff_toNat_le UInt32.le_iff_toNat_le).trans Finset.mem_Icc.symm
  rw [hset, ncard_toNat_mem, Nat.card_Icc]
  · omega
  · intro n hn
    exact Nat.lt_of_le_of_lt (Finset.mem_Icc.mp hn).2 most.toNat_lt

/-- The range is the number of integers within the bounds, if they leave something out. -/
theorem toNat_range (h : least ≤ most) (hout : ¬LeavesNothingOut least most) :
    (most - least + 1).toNat = most.toNat - least.toNat + 1 := by
  have hmost := most.toNat_lt
  have hone : (1 : UInt32).toNat = 1 := rfl
  have hends : ¬(least.toNat = 0 ∧ most.toNat = 0xFFFFFFFF) := fun ⟨hleast, hmost⟩ =>
    hout ⟨UInt32.toNat_inj.mp hleast, UInt32.toNat_inj.mp hmost⟩
  rw [UInt32.toNat_add, UInt32.toNat_sub_of_le _ _ h, hone]
  omega

/-- The range is a word that is some, if the bounds leave something out. -/
theorem range_ne_zero (h : least ≤ most) (hout : ¬LeavesNothingOut least most) :
    most - least + 1 ≠ 0 := by
  intro hzero
  have hcount := toNat_range h hout
  rw [hzero] at hcount
  exact nomatch hcount

/-- Where the bounds leave nothing out, every word stands for itself. -/
theorem integer?_full (word : UInt32) : integer? 0 0xFFFFFFFF word = some word := by
  have hrange : (0xFFFFFFFF : UInt32) - 0 + 1 = 0 := by decide
  unfold integer?
  exact if_pos hrange

/-- Where the bounds leave something out, a word stands for an integer if it is accepted for the
distance of the integer from the least. -/
theorem integer?_eq_some_iff (hrange : most - least + 1 ≠ 0) {word n : UInt32} :
    integer? least most word = some n ↔
      accept (most - least + 1) (integerZone (most - least + 1)) word = some (n - least) := by
  unfold integer?
  dsimp only
  rw [if_neg hrange, Option.map_eq_some_iff]
  constructor
  · rintro ⟨value, haccept, rfl⟩
    rw [haccept, UInt32.add_comm, UInt32.add_sub_cancel]
  · intro haccept
    exact ⟨n - least, haccept, by rw [UInt32.add_comm, UInt32.sub_add_cancel]⟩

/-- The distance of an integer from the least is below the range if the integer is within the
bounds, and only then. -/
theorem sub_lt_range_iff (h : least ≤ most) (hout : ¬LeavesNothingOut least most) {n : UInt32} :
    n - least < most - least + 1 ↔ n ∈ within least most := by
  have hle : least.toNat ≤ most.toNat := UInt32.le_iff_toNat_le.mp h
  have hmost := most.toNat_lt
  have hn := n.toNat_lt
  have hmem : n ∈ within least most ↔ least.toNat ≤ n.toNat ∧ n.toNat ≤ most.toNat :=
    and_congr UInt32.le_iff_toNat_le UInt32.le_iff_toNat_le
  rw [hmem, UInt32.lt_iff_toNat_lt, toNat_range h hout, UInt32.toNat_sub]
  omega

/-- Words stand evenly for the integers within bounds. -/
theorem givesEvenly_integer (h : least ≤ most) :
    GivesEvenly (integer? least most) (within least most) (copies least most) := by
  by_cases hout : LeavesNothingOut least most
  · -- Every integer is what one word stands for, the integer itself.
    rw [copies, if_pos hout]
    obtain ⟨rfl, rfl⟩ := hout
    constructor
    · intro w n _
      exact ⟨UInt32.zero_le, UInt32.le_iff_toNat_le.mpr (Nat.le_of_lt_succ n.toNat_lt)⟩
    · intro n _
      have hset : {w | integer? 0 0xFFFFFFFF w = some n} = {n} := by
        ext w
        rw [Set.mem_ofPred_eq, integer?_full, Option.some.injEq, Set.mem_singleton_iff]
      rw [hset, Set.ncard_singleton]
  · have hrange := range_ne_zero h hout
    rw [copies, if_neg hout]
    constructor
    · intro w n hn
      have haccept := (integer?_eq_some_iff hrange).mp hn
      exact (sub_lt_range_iff h hout).mp (lt_of_accept hrange haccept)
    · intro n hn
      have hlt := (sub_lt_range_iff h hout).mpr hn
      simp only [integer?_eq_some_iff hrange]
      exact ncard_accept hrange (toNat_integerZone hrange) hlt

/-- Of all words at least half stand for an integer within bounds. -/
theorem half_le_ncard_integer (h : least ≤ most) :
    2 ^ 31 ≤ {w | (integer? least most w).isSome}.ncard := by
  rw [(givesEvenly_integer h).ncard_isSome (finite_words _), ncard_within h, copies]
  split
  · next hout =>
    obtain ⟨rfl, rfl⟩ := hout
    decide
  · next hout =>
    rw [← toNat_range h hout]
    exact half_le_shifted (range_ne_zero h hout)

end Integers

/-- The zone for characters is as large a multiple of their number as there is below all words. -/
theorem toNat_characterZone :
    characterZone.toNat + 1 = characterRange.toNat * (2 ^ 32 / 95) := by
  decide

/-- The printable ASCII characters. -/
def printableCharacters : Set Char := { c | 0x20 ≤ c.toNat ∧ c.toNat ≤ 0x7E }

/-- A word stands for a character if it is accepted for the distance of the character from the
space. -/
theorem character?_eq_some_iff {word : UInt32} {c : Char} :
    character? word = some c ↔ c ∈ printableCharacters ∧
      accept characterRange characterZone word = some (UInt32.ofNat (c.toNat - 0x20)) := by
  unfold character?
  rw [Option.map_eq_some_iff]
  constructor
  · rintro ⟨value, haccept, rfl⟩
    have hlt : value.toNat < 95 :=
      UInt32.lt_iff_toNat_lt.mp (lt_of_accept (by decide) haccept)
    have htoNat : (Char.ofNat (0x20 + value.toNat)).toNat = 0x20 + value.toNat :=
      Alphabet.toNat_ofNat (by omega)
    constructor
    · rw [printableCharacters, Set.mem_ofPred_eq, htoNat]
      omega
    · rw [htoNat, Nat.add_sub_cancel_left, UInt32.ofNat_toNat, haccept]
  · rintro ⟨⟨hleast, hmost⟩, haccept⟩
    refine ⟨_, haccept, ?_⟩
    rw [toNat_ofNat_word (by omega), Nat.add_sub_cancel' hleast, Char.ofNat_toNat]

/-- Words stand evenly for the printable ASCII characters. -/
theorem givesEvenly_character :
    GivesEvenly character? printableCharacters (2 ^ 32 / 95) := by
  constructor
  · intro w c hc
    exact (character?_eq_some_iff.mp hc).1
  · intro c hc
    obtain ⟨hleast, hmost⟩ := hc
    have hvalue : UInt32.ofNat (c.toNat - 0x20) < characterRange := by
      have hrange : characterRange.toNat = 95 := rfl
      rw [UInt32.lt_iff_toNat_lt, toNat_ofNat_word (by omega), hrange]
      omega
    simp only [character?_eq_some_iff, printableCharacters, Set.mem_ofPred_eq, hleast, hmost,
      and_self, true_and]
    exact ncard_accept (by decide) toNat_characterZone hvalue

end Uniform

open PatternSampler.Uniform

/-- A source that draws from a stream of words answers within bounds, whatever the words. -/
theorem WordStream.source_inBounds {σ : Type} (words : WordStream σ) : words.source.InBounds := by
  intro q s
  cases q with
  | boolean => trivial
  | integer least most =>
    intro h
    obtain ⟨word, hword⟩ := words.draw_fst (integer? least most) least s
    have hanswer : (words.source.answer (.integer least most) s).1 =
        (words.draw (integer? least most) least s).1 := rfl
    rw [hanswer, hword]
    cases hvalue : integer? least most word with
    | none => exact ⟨UInt32.le_refl least, h⟩
    | some n => exact (givesEvenly_integer h).mem_values _ _ hvalue
  | character =>
    obtain ⟨word, hword⟩ := words.draw_fst character? ' ' s
    have hanswer : (words.source.answer .character s).1 =
        (words.draw character? ' ' s).1 := rfl
    have hspace : ' ' ∈ printableCharacters := ⟨by decide, by decide⟩
    unfold Query.Allows
    dsimp only
    rw [hanswer, hword]
    cases hvalue : character? word with
    | none => exact hspace
    | some c => exact givesEvenly_character.mem_values _ _ hvalue

/-- A source that draws from a stream of words keeps its bounds and favours nothing. For bounds in
order, each integer within them is what equally many of all words stand for, one where the bounds
leave nothing out and else as many as two to the leading zeros of the range; no word stands for
another, and at least half of the words stand for one. Each printable ASCII character is what a
ninety-fifth of all words stand for, rounded down, and no word stands for another character. What is
answered is what the first of the stream's words that stands for anything stands for, and the words
behind it are left. -/
theorem source_unbiased {σ : Type} (words : WordStream σ) {least most : UInt32}
    (h : least ≤ most) :
    words.source.InBounds ∧
    (GivesEvenly (integer? least most) (within least most) (copies least most) ∧
      2 ^ 31 ≤ {w | (integer? least most w).isSome}.ncard ∧
      ∀ (s : σ) (k : Nat) (n : UInt32), words.FirstAt (integer? least most) s k n →
        words.source.answer (.integer least most) s = (n, words.after (k + 1) s)) ∧
    GivesEvenly character? printableCharacters (2 ^ 32 / 95) ∧
      ∀ (s : σ) (k : Nat) (c : Char), words.FirstAt character? s k c →
        words.source.answer .character s = (c, words.after (k + 1) s) := by
  refine ⟨words.source_inBounds,
    ⟨givesEvenly_integer h, half_le_ncard_integer h, fun s k n hn => ?_⟩,
    givesEvenly_character, fun s k c hc => ?_⟩
  · have hanswer : words.source.answer (.integer least most) s =
        words.draw (integer? least most) least s := rfl
    rw [hanswer, hn.draw_eq]
  · have hanswer : words.source.answer .character s =
        words.draw character? ' ' s := rfl
    rw [hanswer, hc.draw_eq]

/-- Of all words a quarter each stand for one, two and three. Where every word is followed by the
one a quarter of all words further on, the word at a quarter is rejected, and the word at a half
answered with two. -/
theorem source_unbiased_oneToThree :
    let words : WordStream UInt32 := ⟨fun w => (w, w + 0x40000000)⟩
    {w | integer? 1 3 w = some 2}.ncard = 2 ^ 30 ∧ integer? 1 3 0x40000000 = none ∧
      words.source.answer (.integer 1 3) 0x40000000 = (2, 0xC0000000) := by
  intro words
  have hle : (1 : UInt32) ≤ 3 := by decide
  have hrejected : integer? 1 3 0x40000000 = none := by decide
  have haccepted : integer? 1 3 0x80000000 = some 2 := by decide
  obtain ⟨-, ⟨heven, -, hanswer⟩, -⟩ := source_unbiased words hle
  have hclz : (3 - 1 + 1 : UInt32).toBitVec.clz.toNat = 30 := by decide
  have hcopies : copies 1 3 = 2 ^ 30 := by rw [copies, if_neg (by decide), hclz]
  have hsecond : words.FirstAt (integer? 1 3) 0x40000000 1 2 := by
    refine ⟨fun j hj => ?_, haccepted⟩
    obtain rfl : j = 0 := Nat.lt_one_iff.mp hj
    exact hrejected
  have hmem : 2 ∈ within 1 3 := ⟨by decide, by decide⟩
  have hbehind : words.after 2 0x40000000 = 0xC0000000 := by decide
  have hnumber := heven.ncard_eq 2 hmem
  rw [hcopies] at hnumber
  have hsome := hanswer _ 1 2 hsecond
  rw [hbehind] at hsome
  exact ⟨hnumber, hrejected, hsome⟩

end PatternSampler
