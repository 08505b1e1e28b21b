import PatternSampler.Proofs.Frames

/-!
# Which node is at fault

Every error carries the offset of a node. `Frame.AtFault` says, without the interpreter, when a node
is at fault that a run has got to, which error then reports it, and with what in it. The node is
that of the frame, a child that should have been a quantifier, or an end of a range.

If the evaluation of a frame fails, then it breaks off at a node, or else a run gets from it to
another frame whose evaluation fails with the same error (`Frame.hasCause_emit`), and the other way
round (`Frame.BreaksOff.fails`, `Frame.Child.fails`). The nodes become smaller on the way, so a run
ends with an error exactly if it has reached a node at fault which the error reports
(`run_error_iff_atFault`).
-/

namespace PatternSampler

namespace Frame

variable {σ : Type}

open Sampler in
/-- The evaluation of a frame breaks off at a node, as an error reports. -/
inductive BreaksOff (src : Source σ) (cfg : Config) :
    Frame σ → Path → Node → SampleError → Prop where
  /-- The entries of an inverted set strike out every character. -/
  | exhaustedPool {m body path depth p captures s s'}
      (h : (strike cfg body path 0 (depth + 1) Alphabet.printable p.captures).Gives src s
        ([], captures) s') :
      BreaksOff src cfg ⟨.charset m body true, path, depth, p, s⟩ path (.charset m body true)
        (.exhaustedPool m.offset)
  /-- A set that is not inverted has no entries. -/
  | emptyCharset {m path depth p s} :
      BreaksOff src cfg ⟨.charset m [] false, path, depth, p, s⟩ path (.charset m [] false)
        (.emptyCharset m.offset)
  /-- A node of another kind stands in the place of a quantifier. -/
  | notAQuantifier {m body q path depth p s} (h : q.tag ≠ .quantifier) :
      BreaksOff src cfg ⟨.quantified m body q, path, depth, p, s⟩ (1 :: path) q
        (.notAQuantifier q.offset q.tag)
  /-- The upper bound of a quantifier is below the lower one, or it is too large for a count. -/
  | invalidBounds {m body mark bounds greedy most path depth p s}
      (hmost : bounds.max = some most)
      (h : most.toInt < max bounds.min.toInt 0 ∨ 0xFFFFFFFF < most.toInt) :
      BreaksOff src cfg ⟨.quantified m body (.quantifier mark bounds greedy), path, depth, p, s⟩
        (1 :: path) (.quantifier mark bounds greedy)
        (.invalidBounds mark.offset (max bounds.min.toInt 0) most.toInt)
  /-- The upper bound that is drawn for a quantifier is too large for a count. -/
  | invalidDrawnBounds {m body mark bounds greedy extra path depth p s s'}
      (hmost : bounds.max = none)
      (hdrawn : (integer cfg.leastExtra cfg.mostExtra).Gives src s extra s')
      (hle : max bounds.min.toInt 0 + (extra.toNat : Int) ≤ 0x7FFFFFFFFFFFFFFF)
      (h : 0xFFFFFFFF < max bounds.min.toInt 0 + (extra.toNat : Int)) :
      BreaksOff src cfg ⟨.quantified m body (.quantifier mark bounds greedy), path, depth, p, s⟩
        (1 :: path) (.quantifier mark bounds greedy)
        (.invalidBounds mark.offset (max bounds.min.toInt 0) (max bounds.min.toInt 0 + extra.toNat))
  /-- The upper bound that is drawn is larger than a bound can be. -/
  | exceededBounds {m body mark bounds greedy extra path depth p s s'}
      (hmost : bounds.max = none)
      (hdrawn : (integer cfg.leastExtra cfg.mostExtra).Gives src s extra s')
      (h : 0x7FFFFFFFFFFFFFFF < max bounds.min.toInt 0 + (extra.toNat : Int)) :
      BreaksOff src cfg ⟨.quantified m body (.quantifier mark bounds greedy), path, depth, p, s⟩
        (1 :: path) (.quantifier mark bounds greedy)
        (.invalidBounds mark.offset (max bounds.min.toInt 0) 0x7FFFFFFFFFFFFFFF)
  /-- The first end of a range gives no character, or several. -/
  | firstEndpoint {m first last path depth p q s s'}
      (h : (emit cfg first (0 :: path) (depth + 1) { captures := p.captures }).Gives src s q s')
      (hlength : q.text.length ≠ 1) :
      BreaksOff src cfg ⟨.range m first last, path, depth, p, s⟩ (0 :: path) first
        (.invalidRangeEndpoint first.offset q.text)
  /-- The last end of a range gives no character, or several. -/
  | lastEndpoint {m first last path depth p a captures q s s₁ s'}
      (hfirst : (endpoint first.offset (emit cfg first (0 :: path) (depth + 1)) p.captures).Gives
        src s (a, captures) s₁)
      (h : (emit cfg last (1 :: path) (depth + 1) { captures }).Gives src s₁ q s')
      (hlength : q.text.length ≠ 1) :
      BreaksOff src cfg ⟨.range m first last, path, depth, p, s⟩ (1 :: path) last
        (.invalidRangeEndpoint last.offset q.text)
  /-- The first end of a range comes after the last. -/
  | backwardsRange {m first last path depth p a b captures captures' s s₁ s'}
      (hfirst : (endpoint first.offset (emit cfg first (0 :: path) (depth + 1)) p.captures).Gives
        src s (a, captures) s₁)
      (hlast : (endpoint last.offset (emit cfg last (1 :: path) (depth + 1)) captures).Gives
        src s₁ (b, captures') s')
      (h : b < a) :
      BreaksOff src cfg ⟨.range m first last, path, depth, p, s⟩ path (.range m first last)
        (.backwardsRange m.offset a b)
  /-- The code of a numeric escape denotes no number of thirty-two bits. -/
  | invalidCode {m form code path depth p s}
      (h : ∀ n, Numeral.Denotes form.base code n → 0xFFFFFFFF < n) :
      BreaksOff src cfg ⟨.numeric m form code, path, depth, p, s⟩ path (.numeric m form code)
        (.invalidCode m.offset code form.base)
  /-- The code of a numeric escape denotes a number that is no character's. -/
  | invalidCodePoint {m form code n path depth p s} (hn : Numeral.Denotes form.base code n)
      (hle : n ≤ 0xFFFFFFFF) (h : ¬n.isValidChar) :
      BreaksOff src cfg ⟨.numeric m form code, path, depth, p, s⟩ path (.numeric m form code)
        (.invalidCodePoint m.offset (UInt32.ofNat n))
  /-- A symbol is none of those from the at sign to the underscore. -/
  | unknownControl {m code path depth p s} (h : code < '@' ∨ '_' < code) :
      BreaksOff src cfg ⟨.control m code, path, depth, p, s⟩ path (.control m code)
        (.unknownControl m.offset code)

/-- A node is at fault in the evaluation of a frame, as an error reports: the node of the frame lies
too deep, or it does not and the evaluation breaks off. -/
inductive AtFault (src : Source σ) (cfg : Config) (f : Frame σ) :
    Path → Node → SampleError → Prop where
  | tooDeep (h : cfg.maxDepth ≤ f.depth) :
      AtFault src cfg f f.path f.node (.tooDeep f.node.offset cfg.maxDepth)
  | evaluated {path n e} (hdepth : f.depth < cfg.maxDepth) (h : BreaksOff src cfg f path n e) :
      AtFault src cfg f path n e

variable {src : Source σ} {cfg : Config} {f g : Frame σ} {root n : Node} {path : Path}
  {e : SampleError}

/-- An error has the offset of the node that an evaluation breaks off at, which stands in the
pattern. -/
theorem BreaksOff.at_path (h : BreaksOff src cfg f path n e) (hf : root.at? f.path = some f.node) :
    root.at? path = some n ∧ n.offset = e.offset := by
  cases h with
  | notAQuantifier | invalidBounds | invalidDrawnBounds | exceededBounds | firstEndpoint
  | lastEndpoint => exact ⟨Node.at_child hf _, rfl⟩
  | exhaustedPool | emptyCharset | backwardsRange | invalidCode | invalidCodePoint
  | unknownControl => exact ⟨hf, rfl⟩

/-- An error has the offset of the node at fault, which stands in the pattern. -/
theorem AtFault.at_path (h : AtFault src cfg f path n e) (hf : root.at? f.path = some f.node) :
    root.at? path = some n ∧ n.offset = e.offset := by
  cases h with
  | tooDeep => exact ⟨hf, rfl⟩
  | evaluated _ h => exact h.at_path hf

end Frame

namespace Frame

variable {σ : Type} {src : Source σ} {cfg : Config} {f g : Frame σ} {e : SampleError}

open Sampler

/-- The evaluation of a frame fails with an error. -/
def Fails (src : Source σ) (cfg : Config) (f : Frame σ) (e : SampleError) : Prop :=
  (emit cfg f.node f.path f.depth f.page).Fails src f.state e

/-- An error in the evaluation of a frame has a cause: it breaks off at a node, or that of a frame
which a run gets to fails with the error. -/
def HasCause (src : Source σ) (cfg : Config) (f : Frame σ) (e : SampleError) : Prop :=
  (∃ path n, BreaksOff src cfg f path n e) ∨ ∃ g, Child src cfg f g ∧ g.Fails src cfg e

/-- The ends of a range fail where there is a cause. -/
theorem fails_ends_iff {m : Mark} {first last : Node} {path : Path} {depth : Nat} {p : Page}
    {s : σ} :
    (ends m.offset (endpoint first.offset (emit cfg first (0 :: path) (depth + 1)))
      (endpoint last.offset (emit cfg last (1 :: path) (depth + 1))) p.captures).Fails src s e ↔
      HasCause src cfg ⟨.range m first last, path, depth, p, s⟩ e := by
  constructor
  · intro h
    rcases fails_bind.mp h with h | ⟨⟨a, captures⟩, s₁, hfirst, h⟩
    · rcases fails_endpoint.mp h with h | ⟨q, s', hq, hlength, rfl⟩
      · exact .inr ⟨_, .first, h⟩
      · exact .inl ⟨_, _, .firstEndpoint hq hlength⟩
    rcases fails_bind.mp h with h | ⟨⟨b, captures'⟩, s', hlast, h⟩
    · rcases fails_endpoint.mp h with h | ⟨q, s', hq, hlength, rfl⟩
      · exact .inr ⟨_, .last hfirst, h⟩
      · exact .inl ⟨_, _, .lastEndpoint hfirst hq hlength⟩
    dsimp only at h
    split at h
    · next hlt =>
      cases fails_fail.mp h
      exact .inl ⟨_, _, .backwardsRange hfirst hlast hlt⟩
    · exact absurd h not_fails_pure
  · rintro (⟨_, _, h⟩ | ⟨_, h, hg⟩)
    · cases h with
      | firstEndpoint hq hlength =>
        exact fails_bind.mpr (.inl (fails_endpoint.mpr (.inr ⟨_, _, hq, hlength, rfl⟩)))
      | lastEndpoint hfirst hq hlength =>
        refine fails_bind.mpr (.inr ⟨_, _, hfirst, fails_bind.mpr (.inl ?_)⟩)
        exact fails_endpoint.mpr (.inr ⟨_, _, hq, hlength, rfl⟩)
      | backwardsRange hfirst hlast hlt =>
        refine fails_bind.mpr (.inr ⟨_, _, hfirst, fails_bind.mpr (.inr ⟨_, _, hlast, ?_⟩)⟩)
        dsimp only
        rw [if_pos hlt, fails_fail]
    · cases h with
      | first => exact fails_bind.mpr (.inl (fails_endpoint.mpr (.inl hg)))
      | last hfirst =>
        refine fails_bind.mpr (.inr ⟨_, _, hfirst, fails_bind.mpr (.inl ?_)⟩)
        exact fails_endpoint.mpr (.inl hg)

/-- The count of a quantifier fails where the repetition breaks off. -/
theorem fails_count_iff {m : Mark} {body q : Node} {path : Path} {depth : Nat} {p : Page} {s : σ}
    (hsrc : src.KeepsIntegers) :
    (count cfg q).Fails src s e ↔
      ∃ path' n, BreaksOff src cfg ⟨.quantified m body q, path, depth, p, s⟩ path' n e := by
  constructor
  · intro h
    cases q with
    | quantifier mark bounds greedy =>
      simp only [count] at h
      cases hmost : bounds.max with
      | some most =>
        rw [hmost] at h
        obtain ⟨hbounds, rfl⟩ := (fails_countWithin hsrc).mp h
        exact ⟨_, _, .invalidBounds hmost hbounds⟩
      | none =>
        rw [hmost] at h
        rcases fails_bind.mp h with h | ⟨extra, s', hextra, h⟩
        · exact absurd h not_fails_ask
        split at h
        · next hlarge =>
          cases fails_fail.mp h
          exact ⟨_, _, .exceededBounds hmost hextra hlarge⟩
        · next hsmall =>
          obtain ⟨hbounds, rfl⟩ := (fails_countWithin hsrc).mp (fails_note.mp h)
          -- The bound that is drawn is not below the lower one, so it is too large.
          have hlarge : maxCount < max bounds.min.toInt 0 + (extra.toNat : Int) := by omega
          exact ⟨_, _, .invalidDrawnBounds hmost hextra (Int.not_lt.mp hsmall) hlarge⟩
    | _ =>
      cases fails_fail.mp h
      refine ⟨_, _, .notAQuantifier fun hquantifier => ?_⟩
      cases hquantifier
  · rintro ⟨_, _, h⟩
    cases h with
    | notAQuantifier hq =>
      unfold count
      split
      · exact absurd rfl hq
      · exact fails_fail.mpr rfl
    | invalidBounds hmost hbounds =>
      simp only [count, hmost]
      exact (fails_countWithin hsrc).mpr ⟨hbounds, rfl⟩
    | invalidDrawnBounds hmost hextra hsmall hlarge =>
      simp only [count, hmost]
      refine fails_bind.mpr (.inr ⟨_, _, hextra, ?_⟩)
      rw [if_neg (Int.not_lt.mpr hsmall : ¬maxBound < _)]
      exact fails_note.mpr ((fails_countWithin hsrc).mpr ⟨.inr hlarge, rfl⟩)
    | exceededBounds hmost hextra hlarge =>
      simp only [count, hmost]
      refine fails_bind.mpr (.inr ⟨_, _, hextra, ?_⟩)
      rw [if_pos (show maxBound < _ from hlarge), fails_fail]
      rfl

/-- An error in the evaluation of a node that is not too deep has a cause. -/
theorem hasCause_emit {node : Node} {path : Path} {depth : Nat} {p : Page} {s : σ}
    (hsrc : src.KeepsIntegers) (hwidest : node.widest ≤ 0xFFFFFFFF) (hdepth : depth < cfg.maxDepth)
    (h : (emit cfg node path depth p).Fails src s e) :
    HasCause src cfg ⟨node, path, depth, p, s⟩ e := by
  unfold emit at h
  rw [if_neg (Nat.not_le.mpr hdepth), fails_note] at h
  match node with
  | .alternate m l r =>
    rcases fails_bind.mp h with h | ⟨b, s', hb, h⟩
    · exact absurd h not_fails_ask
    cases b
    · exact .inr ⟨_, .right hb, h⟩
    · exact .inr ⟨_, .left hb, h⟩
  | .sequence m body =>
    obtain ⟨before, n, after, rfl, q, s', hgives, hfails⟩ := fails_emitAll.mp h
    rw [Nat.zero_add] at hfails
    exact .inr ⟨_, .item hgives, hfails⟩
  | .group m .capturing body =>
    rcases fails_bind.mp h with h | ⟨⟨number, captures⟩, s', henter, h⟩
    · exact absurd h not_fails_enter
    rcases fails_bind.mp h with h | ⟨q, s', -, h⟩
    · exact .inr ⟨_, .captured henter, h⟩
    · exact absurd (fails_note.mp h) not_fails_pure
  | .group m .notAhead body => exact absurd h not_fails_pure
  | .group m .plain body => exact .inr ⟨_, .bracketed nofun nofun, h⟩
  | .group m .ahead body => exact .inr ⟨_, .bracketed nofun nofun, h⟩
  | .quantified m body q =>
    rcases fails_bind.mp h with h | ⟨n, s₁, hn, h⟩
    · exact .inl ((fails_count_iff hsrc).mp h)
    · obtain ⟨k, hk, q', s', hrounds, hfails⟩ := fails_iterate.mp h
      exact .inr ⟨_, .round hn hk hrounds, hfails⟩
  | .quantifier .. => exact absurd h not_fails_pure
  | .charset m body true =>
    rcases fails_bind.mp h with h | ⟨⟨pool, captures⟩, s', hpool, h⟩
    · obtain ⟨before, n, after, rfl, hn, pool', captures', s', hgives, hfails⟩ :=
        (fails_strike hsrc hdepth).mp h
      rw [Nat.zero_add] at hfails
      exact .inr ⟨_, .struck hn hgives, hfails⟩
    -- A pool holds printable characters only, so one can be picked unless there is none.
    rcases fails_bind.mp h with h | ⟨c, s', -, h⟩
    · have hlength : pool.length ≤ 0xFFFFFFFF :=
        Nat.le_trans (length_strike_le hpool) (by decide)
      obtain ⟨rfl, rfl⟩ := (fails_pickChar hsrc hlength).mp h
      exact .inl ⟨_, _, .exhaustedPool hpool⟩
    · exact absurd h not_fails_pure
  | .charset m [] false =>
    cases fails_fail.mp h
    exact .inl ⟨_, _, .emptyCharset⟩
  | .charset m (n :: ns) false =>
    rcases fails_bind.mp h with h | ⟨i?, s', hi, h⟩
    · exact absurd h not_fails_index
    -- An index is given, as there are members and not too many, and the member there is evaluated.
    have hlength : (n :: ns).length ≤ 0xFFFFFFFF := Nat.le_trans (Nat.le_max_left _ _) hwidest
    obtain ⟨i, hlt, rfl⟩ :=
      (guarantees_index (E := fun _ => False) (Nat.succ_pos _) hlength).of_gives hsrc hi
    have hn : (n :: ns)[i]? = some (n :: ns)[i] := List.getElem?_eq_getElem hlt
    dsimp only at h
    rw [emitNth_eq hn, Nat.zero_add] at h
    exact .inr ⟨_, .chosen hi hn, h⟩
  | .range m first last =>
    rcases fails_bind.mp h with h | ⟨⟨a, b, captures⟩, s', hends, h⟩
    · exact fails_ends_iff.mp h
    · exact absurd h (not_fails_between hsrc (le_of_gives_ends hends) m.offset _)
  | .literal .. => exact absurd h not_fails_pure
  | .numeric m form code =>
    rcases fails_bind.mp h with h | ⟨c, s', -, h⟩
    · rcases escaped_eq_error.mp (fails_ofExcept.mp h) with
        ⟨hcode, rfl⟩ | ⟨n, hn, hle, hvalid, rfl⟩
      · exact .inl ⟨_, _, .invalidCode hcode⟩
      · exact .inl ⟨_, _, .invalidCodePoint hn hle hvalid⟩
    · exact absurd h not_fails_pure
  | .backReference _ code => exact absurd (fails_note.mp h) not_fails_pure
  | .control m code =>
    dsimp only at h
    split at h
    · exact absurd h not_fails_pure
    · next hnone =>
      cases fails_fail.mp h
      exact .inl ⟨_, _, .unknownControl (Alphabet.control?_eq_none_iff.mp hnone)⟩
  | .token m kind => exact absurd h (not_fails_token hsrc)
  | .unknown m => exact absurd h not_fails_pure

/-- The evaluation of a node that is not too deep fails with the error that it breaks off with. -/
theorem BreaksOff.fails {path : Path} {n : Node} (h : BreaksOff src cfg f path n e)
    (hsrc : src.KeepsIntegers) (hdepth : f.depth < cfg.maxDepth) : f.Fails src cfg e := by
  unfold Fails emit
  rw [if_neg (Nat.not_le.mpr hdepth), fails_note]
  -- A quantifier and the ends of a range have lemmas of their own, which ask for the whole of `h`.
  have hbreaks := h
  cases h with
  | exhaustedPool hpool =>
    refine fails_bind.mpr (.inr ⟨_, _, hpool, fails_bind.mpr (.inl ?_)⟩)
    exact (fails_pickChar hsrc (Nat.zero_le _)).mpr ⟨rfl, rfl⟩
  | emptyCharset => exact fails_fail.mpr rfl
  | notAQuantifier | invalidBounds | invalidDrawnBounds | exceededBounds =>
    exact fails_bind.mpr (.inl ((fails_count_iff hsrc).mpr ⟨_, _, hbreaks⟩))
  | firstEndpoint | lastEndpoint | backwardsRange =>
    exact fails_bind.mpr (.inl (fails_ends_iff.mpr (.inl ⟨_, _, hbreaks⟩)))
  | invalidCode h =>
    exact fails_bind.mpr (.inl (fails_ofExcept.mpr (escaped_eq_error.mpr (.inl ⟨h, rfl⟩))))
  | invalidCodePoint hn hle h =>
    refine fails_bind.mpr (.inl (fails_ofExcept.mpr (escaped_eq_error.mpr (.inr ?_))))
    exact ⟨_, hn, hle, h, rfl⟩
  | unknownControl h =>
    dsimp only
    rw [Alphabet.control?_eq_none_iff.mpr h]
    exact fails_fail.mpr rfl

/-- The evaluation of a node that is not too deep fails if that of a node does which a run gets to
from it. -/
theorem Child.fails (h : Child src cfg f g) (hsrc : src.KeepsIntegers)
    (hdepth : f.depth < cfg.maxDepth) (hg : g.Fails src cfg e) : f.Fails src cfg e := by
  unfold Fails emit
  rw [if_neg (Nat.not_le.mpr hdepth), fails_note]
  have hchild := h
  cases h with
  | left hb | right hb => exact fails_bind.mpr (.inr ⟨_, _, hb, hg⟩)
  | item hgives =>
    refine fails_emitAll.mpr ⟨_, _, _, rfl, _, _, hgives, ?_⟩
    rw [Nat.zero_add]
    exact hg
  | captured henter => exact fails_bind.mpr (.inr ⟨_, _, henter, fails_bind.mpr (.inl hg)⟩)
  | @bracketed m style body path depth p s hcapturing hahead =>
    cases style with
    | capturing => exact absurd rfl hcapturing
    | notAhead => exact absurd rfl hahead
    | plain | ahead => exact hg
  | round hn hk hrounds =>
    exact fails_bind.mpr (.inr ⟨_, _, hn, fails_iterate.mpr ⟨_, hk, _, _, hrounds, hg⟩⟩)
  | chosen hi hn =>
    refine fails_bind.mpr (.inr ⟨_, _, hi, ?_⟩)
    dsimp only
    rw [emitNth_eq hn, Nat.zero_add]
    exact hg
  | struck hn hgives =>
    refine fails_bind.mpr (.inl ((fails_strike hsrc hdepth).mpr ?_))
    refine ⟨_, _, _, rfl, hn, _, _, _, hgives, ?_⟩
    rw [Nat.zero_add]
    exact hg
  | first | last => exact fails_bind.mpr (.inl (fails_ends_iff.mpr (.inr ⟨_, hchild, hg⟩)))

/-- The evaluation of a frame fails with the error that reports a node at fault in it. -/
theorem AtFault.fails {path : Path} {n : Node} (h : AtFault src cfg f path n e)
    (hsrc : src.KeepsIntegers) : f.Fails src cfg e := by
  cases h with
  | tooDeep hdepth =>
    unfold Fails emit
    rw [if_pos hdepth, fails_fail]
  | evaluated hdepth h => exact h.fails hsrc hdepth

/-- The node that a run gets to from another is smaller. -/
theorem Child.sizeOf_lt (h : Child src cfg f g) : sizeOf g.node < sizeOf f.node := by
  have hmember {ns : List Node} {i : Nat} {n : Node} (hn : ns[i]? = some n) :
      sizeOf n < sizeOf ns := List.sizeOf_lt_of_mem (List.mem_of_getElem? hn)
  cases h with
  | @item _ before n after =>
    have hlt := hmember (getElem?_behind before n after)
    simp only [Node.sequence.sizeOf_spec]
    omega
  | @struck _ before n after =>
    have hlt := hmember (getElem?_behind before n after)
    simp only [Node.charset.sizeOf_spec]
    omega
  | chosen _ hn =>
    have hlt := hmember hn
    simp only [Node.charset.sizeOf_spec]
    omega
  | left | right | captured | bracketed | round | first | last =>
    simp only [Node.alternate.sizeOf_spec, Node.group.sizeOf_spec, Node.quantified.sizeOf_spec,
      Node.range.sizeOf_spec]
    omega

/-- The sets in one of some nodes are no larger than those in all of them. -/
theorem widest_le_widestAll {ns : List Node} {i : Nat} {n : Node} (hn : ns[i]? = some n) :
    n.widest ≤ Node.widestAll ns := by
  induction ns generalizing i with
  | nil => cases hn
  | cons first rest ih =>
    cases i with
    | zero =>
      cases hn
      exact Nat.le_max_left _ _
    | succ i => exact Nat.le_trans (ih hn) (Nat.le_max_right _ _)

/-- The sets in the node that a run gets to from another are no larger than those in that one. -/
theorem Child.widest_le (h : Child src cfg f g) : g.node.widest ≤ f.node.widest := by
  cases h with
  | left | round | first => exact Nat.le_max_left _ _
  | right | last => exact Nat.le_max_right _ _
  | captured | bracketed => exact Nat.le_refl _
  | item => exact widest_le_widestAll (getElem?_behind _ _ _)
  | struck =>
    refine Nat.le_trans ?_ (Nat.le_max_right _ _)
    exact widest_le_widestAll (getElem?_behind _ _ _)
  | chosen _ hn => exact Nat.le_trans (widest_le_widestAll hn) (Nat.le_max_right _ _)

/-- The evaluation of a frame fails with the errors that report a node at fault in the frames that a
run reaches from it, and with no others. -/
theorem fails_iff_exists_atFault {f : Frame σ} (hsrc : src.KeepsIntegers)
    (hwidest : f.node.widest ≤ 0xFFFFFFFF) :
    f.Fails src cfg e ↔ ∃ g path n, Reaches src cfg f g ∧ AtFault src cfg g path n e := by
  constructor
  · intro h
    -- The descent goes on until a node is at fault. It ends, for the nodes become smaller.
    by_cases hdepth : f.depth < cfg.maxDepth
    · rcases hasCause_emit hsrc hwidest hdepth h with ⟨path, n, hbreaks⟩ | ⟨g, hchild, hg⟩
      · exact ⟨f, path, n, .refl, .evaluated hdepth hbreaks⟩
      · have hsmaller : sizeOf g.node < sizeOf f.node := hchild.sizeOf_lt
        obtain ⟨g', path, n, hreaches, hfault⟩ :=
          (fails_iff_exists_atFault hsrc (Nat.le_trans hchild.widest_le hwidest)).mp hg
        exact ⟨g', path, n, .head ⟨hdepth, hchild⟩ hreaches, hfault⟩
    · unfold Fails emit at h
      rw [if_pos (Nat.not_lt.mp hdepth), fails_fail] at h
      rw [← h]
      exact ⟨f, f.path, f.node, .refl, .tooDeep (Nat.not_lt.mp hdepth)⟩
  · rintro ⟨g, path, n, hreaches, hfault⟩
    have hg := hfault.fails hsrc
    clear hwidest
    induction hreaches using Relation.ReflTransGen.head_induction_on with
    | refl => exact hg
    | head henters _ ih => exact henters.2.fails hsrc henters.1 ih
termination_by sizeOf f.node

end Frame

open Sampler in
/-- A run ends with the errors that report a node at fault in the frames that it has reached, and
with no others. The node stands in the pattern, and has the offset of the error. -/
theorem run_error_iff_atFault {σ : Type} (src : Source σ) (hsrc : src.KeepsIntegers) (cfg : Config)
    (root : Node) (hwidest : root.widest ≤ 0xFFFFFFFF) (s : σ) (e : SampleError) :
    ((sample cfg root).run src s).result = .error e ↔
      ∃ f path n, Frame.Reaches src cfg (.start root s) f ∧ Frame.AtFault src cfg f path n e ∧
        root.at? path = some n ∧ n.offset = e.offset := by
  have hemit : ((sample cfg root).run src s).result = .error e ↔
      (Frame.start root s).Fails src cfg e := by
    refine fails_bind.trans (or_iff_left ?_)
    rintro ⟨p, s', -, h⟩
    rw [tell_bind, fails_note] at h
    exact not_fails_pure h
  rw [hemit, Frame.fails_iff_exists_atFault hsrc hwidest]
  constructor
  · rintro ⟨f, path, n, hreaches, hfault⟩
    exact ⟨f, path, n, hreaches, hfault, hfault.at_path hreaches.at_path⟩
  · rintro ⟨f, path, n, hreaches, hfault, -⟩
    exact ⟨f, path, n, hreaches, hfault⟩

/-- A letter in a group, and then a character outside a set whose range starts with what the group
gave. -/
def Node.fromCaptured : Node :=
  .sequence { } [capture (ofChar 'b'),
    .charset { offset := 3 } [ofChar 'x', .range { offset := 6 } (backTo 1) (ofChar 'a')] true]

/-- The range is at fault: the group gave a letter that comes after its last one. -/
theorem run_error_fromCaptured :
    Source.lowest.KeepsIntegers ∧ Node.fromCaptured.widest ≤ 0xFFFFFFFF ∧
      ((sample { } .fromCaptured).run Source.lowest ()).result =
        .error (.backwardsRange 6 'b' 'a') ∧
      ∃ f path n, Frame.Reaches Source.lowest { } (.start .fromCaptured ()) f ∧
        Frame.AtFault Source.lowest { } f path n (.backwardsRange 6 'b' 'a') ∧
        Node.fromCaptured.at? path = some n ∧ n.offset = 6 := by
  have hsrc := Source.lowest_inBounds.keepsIntegers
  have hwidest : Node.fromCaptured.widest ≤ 0xFFFFFFFF := by decide
  have hrun : ((sample { } .fromCaptured).run Source.lowest ()).result =
      .error (.backwardsRange 6 'b' 'a') := rfl
  exact ⟨hsrc, hwidest, hrun,
    (run_error_iff_atFault Source.lowest hsrc { } .fromCaptured hwidest () _).mp hrun⟩

end PatternSampler
