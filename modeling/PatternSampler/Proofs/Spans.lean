import Mathlib.Data.Char
import Mathlib.Data.Set.Card
import Mathlib.Order.Interval.Finset.Nat
import PatternSampler.Proofs.Levels

/-!
# One word for each character of a range

A character of a range is chosen by asking for a word. The words that are asked for go from the code
point of the first character up to `greatestWord`, and `codePoint` is the code point that a word
stands for. The surrogates are no characters: where they lie between the ends, there are as many
words less, and the words that reach them stand for what comes behind them.

The words and the characters of the range are in order and one to one (`bijOn_codePoint`), so there
are as many of them (`ncard_Icc_eq`). A range whose ends are in order therefore gives a character
whatever word in this interval it is answered, and every one of its characters for just one word
(`run_emit_range`).
-/

namespace PatternSampler

namespace Sampler

/-- The surrogates do not come between two characters that are in order. -/
def OnOneSide (first last : Char) : Prop :=
  lastSurrogate < first.val ∨ last.val < firstSurrogate

instance (first last : Char) : Decidable (OnOneSide first last) :=
  inferInstanceAs (Decidable (_ ∨ _))

/-- The greatest word that is asked for when a character between two others is chosen. -/
def greatestWord (first last : Char) : UInt32 :=
  if OnOneSide first last then last.val else last.val - surrogateCount

/-- The words that are asked for when a character between two others is chosen. -/
def words (first last : Char) : Set UInt32 :=
  { n | first.val ≤ n ∧ n ≤ greatestWord first last }

/-- The code point that a word stands for when a character between two others is chosen. -/
def codePoint (first last : Char) (n : UInt32) : UInt32 :=
  if OnOneSide first last then n
  else if firstSurrogate ≤ n then n + surrogateCount else n

/-- One word is asked for, and its code point given. -/
theorem between_eq_map (first last : Char) :
    between first last =
      codePoint first last <$> integer first.val (greatestWord first last) := by
  unfold between
  by_cases hside : OnOneSide first last
  · have hgreatest : greatestWord first last = last.val := if_pos hside
    have hpoint : codePoint first last = id := funext fun _ => if_pos hside
    rw [hgreatest, hpoint, id_map]
    exact if_pos hside
  · have hgreatest : greatestWord first last = last.val - surrogateCount := if_neg hside
    have hpoint : codePoint first last =
        fun n => if firstSurrogate ≤ n then n + surrogateCount else n :=
      funext fun _ => if_neg hside
    rw [hgreatest, hpoint, ← bind_pure_comp]
    exact if_neg hside

variable {first last : Char}

/-- The words that are asked for are some. -/
theorem val_le_greatestWord (h : first ≤ last) : first.val ≤ greatestWord first last := by
  unfold greatestWord
  split
  · exact h
  · next hside => exact (surrogates_between hside).2.2

/-- The words that are asked for stand for the code points of the characters between the ends, and
for nothing else. -/
theorem image_codePoint (h : first ≤ last) :
    codePoint first last '' words first last = Char.val '' Set.Icc first last := by
  have hle := val_le_greatestWord h
  -- The values that a choice may give are known, and they are the images of the words.
  have hgive (v : UInt32) :
      v ∈ codePoint first last '' words first last ↔ (between first last).MayGive v := by
    rw [between_eq_map, mayGive_map]
    refine exists_congr fun n => and_congr ?_ eq_comm
    exact (mayGive_integer hle).symm
  ext v
  rw [hgive, mayGive_between h]
  constructor
  · rintro ⟨hfirst, hlast, hvalid⟩
    exact ⟨⟨v, hvalid⟩, ⟨hfirst, hlast⟩, rfl⟩
  · rintro ⟨c, hc, rfl⟩
    exact ⟨hc.1, hc.2, c.valid⟩

/-- Greater words stand for greater code points. -/
theorem codePoint_lt_codePoint {m n : UInt32} (hn : n ∈ words first last) (hlt : m < n) :
    codePoint first last m < codePoint first last n := by
  obtain ⟨-, hn⟩ := hn
  unfold greatestWord at hn
  unfold codePoint
  by_cases hside : OnOneSide first last
  · rwa [if_pos hside, if_pos hside]
  · rw [if_neg hside] at hn
    rw [if_neg hside, if_neg hside]
    obtain ⟨-, hsub, -⟩ := surrogates_between hside
    have hbound : n.toNat ≤ last.val.toNat - 0x800 := by
      rw [← hsub]
      exact UInt32.le_iff_toNat_le.mp hn
    have hlt' : m.toNat < n.toNat := UInt32.lt_iff_toNat_lt.mp hlt
    -- The sums stay words, so a word that is moved stays behind one that is not.
    obtain ⟨-, hsum⟩ := toNat_add_surrogateCount hbound
    obtain ⟨-, hsum'⟩ := toNat_add_surrogateCount (Nat.le_trans (Nat.le_of_lt hlt') hbound)
    have hfirst : firstSurrogate.toNat = 0xD800 := rfl
    simp only [UInt32.lt_iff_toNat_lt, UInt32.le_iff_toNat_le, hfirst]
    split
    · rw [if_pos (by omega), hsum, hsum']
      omega
    · split
      · rw [hsum]
        omega
      · exact hlt'

/-- Different words stand for different code points. -/
theorem injOn_codePoint (first last : Char) :
    Set.InjOn (codePoint first last) (words first last) := by
  intro m hm n hn heq
  have hle : ¬ m < n := by
    intro hlt
    have h := codePoint_lt_codePoint hn hlt
    rw [heq] at h
    exact UInt32.lt_irrefl _ h
  have hge : ¬ n < m := by
    intro hlt
    have h := codePoint_lt_codePoint hm hlt
    rw [heq] at h
    exact UInt32.lt_irrefl _ h
  exact UInt32.le_antisymm (UInt32.not_lt.mp hge) (UInt32.not_lt.mp hle)

/-- The words stand for the code points of the characters between the ends, one for each. -/
theorem bijOn_codePoint (h : first ≤ last) :
    Set.BijOn (codePoint first last) (words first last) (Char.val '' Set.Icc first last) := by
  rw [← image_codePoint h]
  exact (injOn_codePoint first last).bijOn_image

/-- There are as many characters between the ends as there are words. -/
theorem ncard_Icc_eq (h : first ≤ last) :
    (Set.Icc first last).ncard = (greatestWord first last).toNat - first.toNat + 1 := by
  have hle : first.toNat ≤ (greatestWord first last).toNat :=
    UInt32.le_iff_toNat_le.mp (val_le_greatestWord h)
  -- As numbers without a width, the words are an interval.
  have hnat : UInt32.toNat '' words first last =
      (Finset.Icc first.toNat (greatestWord first last).toNat : Set Nat) := by
    ext n
    rw [Finset.coe_Icc, Set.mem_Icc]
    constructor
    · rintro ⟨w, hw, rfl⟩
      exact ⟨UInt32.le_iff_toNat_le.mp hw.1, UInt32.le_iff_toNat_le.mp hw.2⟩
    · rintro ⟨hfirst, hlast⟩
      have hlt := (greatestWord first last).toNat_lt
      have hword : (UInt32.ofNat n).toNat = n := toNat_ofNat_word (by omega)
      refine ⟨UInt32.ofNat n, ⟨?_, ?_⟩, hword⟩
      · rw [UInt32.le_iff_toNat_le, hword]
        exact hfirst
      · rw [UInt32.le_iff_toNat_le, hword]
        exact hlast
  have hinj : Function.Injective UInt32.toNat := fun _ _ => UInt32.toNat_inj.mp
  have hval : Function.Injective Char.val := fun _ _ => Char.ext
  calc (Set.Icc first last).ncard
    _ = (Char.val '' Set.Icc first last).ncard := (Set.ncard_image_of_injective _ hval).symm
    _ = (words first last).ncard := (bijOn_codePoint h).ncard_eq.symm
    _ = (UInt32.toNat '' words first last).ncard := (Set.ncard_image_of_injective _ hinj).symm
    _ = (greatestWord first last).toNat - first.toNat + 1 := by
      rw [hnat, Set.ncard_coe_finset, Nat.card_Icc]
      omega

variable {σ : Type}

/-- A choice of an integer is one call, and gives its answer. -/
theorem run_integer (src : Source σ) (least most : UInt32) (s : σ) :
    (integer least most).run src s =
      ⟨.ok (src.answer (.integer least most) s).1,
        [.call ⟨.integer least most, (src.answer (.integer least most) s).1⟩],
        (src.answer (.integer least most) s).2⟩ :=
  run_ask src (.integer least most) done s

/-- A choice of a code point is one call, and gives the code point of its answer. -/
theorem run_between (src : Source σ) (first last : Char) (s : σ) :
    let q := Query.integer first.val (greatestWord first last)
    (between first last).run src s =
      ⟨.ok (codePoint first last (src.answer q s).1), [.call ⟨q, (src.answer q s).1⟩],
        (src.answer q s).2⟩ := by
  intro q
  rw [between_eq_map, run_map, run_integer]
  rfl

/-- Where the first end of a range gives a character, it is not too deep. -/
theorem depth_lt_of_run_ends {src : Source σ} {cfg : Config} {start : Node} {path : Path}
    {depth : Nat} {offset i : UInt64} {finish : Captures Path → Sampler (Char × Captures Path)}
    {captures : Captures Path} {s : σ} {r : Char × Char × Captures Path}
    (h : ((ends offset (endpoint i (emit cfg start path depth)) finish captures).run src s).result =
      .ok r) : depth < cfg.maxDepth := by
  refine Nat.lt_of_not_le fun hdeep => ?_
  simp only [ends, endpoint, emit_eq_tooDeep hdeep, fail_bind] at h
  cases h

/-- A range whose ends have been evaluated makes one more call, and adds the character that the
answer stands for. -/
theorem run_emit_range (src : Source σ) (cfg : Config) (mark : Mark) (start finish : Node)
    (path : Path) (depth : Nat) (p : Page) (s : σ) {first last : Char} {captures : Captures Path} :
    let o := (ends mark.offset (endpoint start.offset (emit cfg start (0 :: path) (depth + 1)))
      (endpoint finish.offset (emit cfg finish (1 :: path) (depth + 1))) p.captures).run src s
    let q := Query.integer first.val (greatestWord first last)
    let n := (src.answer q o.state).1
    o.result = .ok (first, last, captures) → ∀ c : Char, c.val = codePoint first last n →
      (emit cfg (.range mark start finish) path depth p).run src s =
        ⟨.ok ({ p with captures }.push c),
          .event (.visit path) :: (o.steps ++ [.call ⟨q, n⟩]), (src.answer q o.state).2⟩ := by
  intro o q n ho c hc
  have hdepth : depth < cfg.maxDepth := Nat.lt_of_succ_lt (depth_lt_of_run_ends ho)
  have hscalar : scalar mark.offset (codePoint first last n) = .ok c := scalar_eq_ok_iff.mpr hc
  have hbetween : (between first last).run src o.state =
      ⟨.ok (codePoint first last n), [.call ⟨q, n⟩], (src.answer q o.state).2⟩ :=
    run_between src first last o.state
  unfold emit
  rw [if_neg (Nat.not_le.mpr hdepth), run_note, run_bind]
  rw [Outcome.andThen, ho]
  dsimp only
  rw [run_bind, hbetween, Outcome.andThen]
  dsimp only
  rw [hscalar]
  rfl

end Sampler

open Sampler

/-- One word for each character of a range. A choice between two characters in order asks for one
word, within bounds that are in order. The words within the bounds are in the order of the code
points that they stand for, and one to one with the characters between the two, so that there are as
many; none stands for a surrogate. A range whose ends have given the two characters makes this one
call more, and adds the character between them that the answer stands for, so that each of them is
added for one answer only. -/
theorem between_bijOn (first last : Char) (h : first ≤ last) :
    (first.val ≤ greatestWord first last ∧
      between first last =
        codePoint first last <$> integer first.val (greatestWord first last) ∧
      (∀ m ∈ words first last, ∀ n ∈ words first last, m < n →
        codePoint first last m < codePoint first last n) ∧
      Set.BijOn (codePoint first last) (words first last) (Char.val '' Set.Icc first last) ∧
      (Set.Icc first last).ncard = (greatestWord first last).toNat - first.toNat + 1 ∧
      ∀ offset, ∀ n ∈ words first last, ∃ c ∈ Set.Icc first last,
        scalar offset (codePoint first last n) = .ok c) ∧
    (∀ c ∈ Set.Icc first last, ∃! n, n ∈ words first last ∧ codePoint first last n = c.val) ∧
    ∀ {σ : Type} (src : Source σ) (cfg : Config) (mark : Mark) (start finish : Node) (path : Path)
      (depth : Nat) (p : Page) (s : σ) (captures : Captures Path),
      let o := (ends mark.offset (endpoint start.offset (emit cfg start (0 :: path) (depth + 1)))
        (endpoint finish.offset (emit cfg finish (1 :: path) (depth + 1))) p.captures).run src s
      let q := Query.integer first.val (greatestWord first last)
      let n := (src.answer q o.state).1
      o.result = .ok (first, last, captures) → n ∈ words first last →
        ∃ c ∈ Set.Icc first last, codePoint first last n = c.val ∧
          (emit cfg (.range mark start finish) path depth p).run src s =
            ⟨.ok ({ p with captures }.push c),
              .event (.visit path) :: (o.steps ++ [.call ⟨q, n⟩]), (src.answer q o.state).2⟩ := by
  have hbij := bijOn_codePoint h
  -- A word within the bounds stands for a character of the range.
  have hchar (n : UInt32) (hn : n ∈ words first last) :
      ∃ c ∈ Set.Icc first last, codePoint first last n = c.val := by
    obtain ⟨c, hc, hval⟩ := hbij.mapsTo hn
    exact ⟨c, hc, hval.symm⟩
  refine ⟨⟨val_le_greatestWord h, between_eq_map first last, ?_, hbij, ncard_Icc_eq h, ?_⟩, ?_, ?_⟩
  · intro m _ n hn hlt
    exact codePoint_lt_codePoint hn hlt
  · intro offset n hn
    obtain ⟨c, hc, hval⟩ := hchar n hn
    exact ⟨c, hc, scalar_eq_ok_iff.mpr hval.symm⟩
  · intro c hc
    obtain ⟨n, hn, hval⟩ := hbij.surjOn ⟨c, hc, rfl⟩
    refine ⟨n, ⟨hn, hval⟩, ?_⟩
    rintro m ⟨hm, hval'⟩
    exact hbij.injOn hm hn (hval'.trans hval.symm)
  · intro σ src cfg mark start finish path depth p s captures o q n ho hn
    obtain ⟨c, hc, hval⟩ := hchar n hn
    exact ⟨c, hc, hval, run_emit_range src cfg mark start finish path depth p s ho c hval.symm⟩

/-- Between the last character but one before the surrogates and the second one behind them there
are four characters. The greatest of the four words is answered, and one of the characters added. -/
theorem between_bijOn_besideSurrogates :
    let first := '\uD7FE'
    let last := '\uE001'
    let o := (emit { } (.range { } (.ofEscapedChar first) (.ofEscapedChar last)) [] 0 { }).run
      Source.highest ()
    first ≤ last ∧ greatestWord first last = 0xD801 ∧ (Set.Icc first last).ncard = 4 ∧
      ∃ c ∈ Set.Icc first last, codePoint first last 0xD801 = c.val ∧
        o.result = .ok (({ } : Page).push c) := by
  intro first last o
  have hle : first ≤ last := by decide
  have hgreatest : greatestWord first last = 0xD801 := by decide
  obtain ⟨⟨hsome, -, -, -, hncard, -⟩, -, hrange⟩ := between_bijOn first last hle
  have hword : greatestWord first last ∈ words first last := ⟨hsome, UInt32.le_refl _⟩
  obtain ⟨c, hc, hval, hrun⟩ := hrange Source.highest { } { } (.ofEscapedChar first)
    (.ofEscapedChar last) [] 0 { } () { } rfl hword
  refine ⟨hle, hgreatest, ?_, c, hc, ?_, ?_⟩
  · have hfirst : first.toNat = 0xD7FE := by decide
    rw [hncard, hgreatest, hfirst, UInt32.toNat_ofNat]
  · rw [← hgreatest]
    exact hval
  · exact congrArg Outcome.result hrun

end PatternSampler
