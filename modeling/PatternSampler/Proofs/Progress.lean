import PatternSampler.Proofs.Exclusion
import PatternSampler.Proofs.Guarantees

/-!
# Patterns that always have samples

A pattern is `WellFormed` if it can be seen from the tree and the limits of repetition that nothing
goes wrong: quantifiers allow some count, sets list members, ranges run forwards between fixed ends,
inverted sets leave some printable character, and the codes of escapes stand for characters.
`guarantees_evaluate` shows that the interpreter has no error for such a pattern, whatever choices
are made and however groups are remembered, as long as the tree is not too high. So a sample always
succeeds (`exists_sample`).
-/

namespace PatternSampler

namespace Node

/-- A quantifier allows some count, whatever is added to its least one where there is no upper
bound. -/
def Repeats (cfg : Config) : Node → Prop
  | .quantifier _ bounds _ =>
    let least := max bounds.min.toInt 0
    match bounds.max with
    | some most => least ≤ most.toInt ∧ most.toInt ≤ 0xFFFFFFFF
    | none => least + max cfg.extraFrom.toNat cfg.extraTo.toNat ≤ 0xFFFFFFFF
  | _ => False

mutual

/-- Nothing can go wrong in a tree that is not too high. -/
def WellFormed (cfg : Config) : Node → Prop
  | alternate _ l r => WellFormed cfg l ∧ WellFormed cfg r
  | sequence _ body => AllWellFormed cfg body
  | group _ _ body => WellFormed cfg body
  | quantified _ body q => WellFormed cfg body ∧ q.Repeats cfg
  | charset _ body true =>
    AllWellFormed cfg body ∧ ∃ x ∈ Alphabet.printable, ∀ entry ∈ body, ¬ entry.Excludes x
  | charset _ body false => AllWellFormed cfg body ∧ 0 < body.length ∧ body.length ≤ 0xFFFFFFFF
  | range _ first last => ∃ a b, first.Fixed a ∧ last.Fixed b ∧ a ≤ b
  | numeric _ form code => ∃ x : Char, Numeral.Denotes form.base code x.toNat
  | control _ symbol => 0x40 ≤ symbol.toNat ∧ symbol.toNat ≤ 0x5F
  | _ => True

/-- Nothing can go wrong in some trees that are not too high. -/
def AllWellFormed (cfg : Config) : List Node → Prop
  | [] => True
  | n :: ns => WellFormed cfg n ∧ AllWellFormed cfg ns

end

/-- Every tree has a root. -/
theorem height_pos (n : Node) : 0 < n.height := by
  unfold height
  split <;> exact Nat.zero_lt_succ _

end Node

namespace Alphabet

/-- The symbols of control characters stand for some. -/
theorem exists_controls {symbol : Char} (h : 0x40 ≤ symbol.toNat ∧ symbol.toNat ≤ 0x5F) :
    ∃ x, Controls symbol x := by
  refine ⟨Char.ofNat (symbol.toNat - 0x40), h.2, ?_⟩
  rw [toNat_ofNat (by omega)]
  omega

end Alphabet

namespace Sampler

variable {α β : Type} {E : SampleError → Prop}

/-- A choice of a count guarantees one, if the bounds are in order and small enough. -/
theorem guarantees_countWithin {offset : UInt64} {least most : Int} (hle : least ≤ most)
    (hmost : most ≤ 0xFFFFFFFF) :
    (countWithin offset least most).Guarantees (fun _ => True) E := by
  unfold countWithin
  rw [if_pos ⟨hle, hmost⟩]
  exact (guarantees_integer (ofNat_toNat_le hle hmost)).bind fun _ _ => trivial

/-- A choice of a count that a quantifier allows guarantees one, if it allows some. -/
theorem guarantees_count {cfg : Config} {q : Node} (hq : q.Repeats cfg) :
    (count cfg q).Guarantees (fun _ => True) E := by
  cases q with
  | quantifier mark bounds greedy =>
    simp only [Node.Repeats] at hq
    simp only [count]
    cases hmax : bounds.max with
    | some most =>
      rw [hmax] at hq
      exact guarantees_countWithin hq.1 hq.2
    | none =>
      rw [hmax] at hq
      refine (guarantees_integer cfg.leastExtra_le_mostExtra).bind fun extra hextra => ?_
      have hmost : extra.toNat ≤ max cfg.extraFrom.toNat cfg.extraTo.toNat := by
        have hle := UInt32.le_iff_toNat_le.mp hextra.2
        rwa [cfg.toNat_mostExtra] at hle
      -- The sum fits into a word, so it is far below the bound that would end the sample.
      rw [if_neg (by simp only [maxBound]; omega)]
      exact guarantees_countWithin (by omega) (by omega)
  | _ => exact hq.elim

/-- A computation that asks for nothing guarantees the value that it has. -/
theorem guarantees_ofExcept {x : Except SampleError α} {a : α} (h : x = .ok a) :
    (ofExcept x).Guarantees (· = a) E := by
  rw [h]
  rfl

/-- Steps in a row guarantee a text if each of them does. -/
theorem guarantees_repeated {μ : Type} {step : μ → Sampler (String × μ)}
    (hstep : ∀ m, (step m).Guarantees (fun _ => True) E) (n : Nat) (m : μ) :
    (repeated step n m).Guarantees (fun _ => True) E := by
  induction n generalizing m with
  | zero => trivial
  | succ n ih => exact (hstep m).bind fun _ _ => (ih _).bind fun _ _ => trivial

/-- A leaf without content guarantees a text. -/
theorem guarantees_tokenText (offset : UInt64) (kind : Token) :
    (tokenText offset kind).Guarantees (fun _ => True) E := by
  have hpool {pool : List Char} (h0 : pool ≠ []) (hlength : pool.length ≤ 0xFF) :
      (pickChar offset pool >>= fun c => pure c.toString).Guarantees (fun _ => True) E :=
    (guarantees_pickChar h0 (by omega)).bind fun _ _ => trivial
  cases kind with
  | anyCharacter => exact guarantees_character.bind fun _ _ => trivial
  | digit | nonDigit | whiteSpace | nonWhiteSpace | word | nonWord =>
    exact hpool (by decide) (by decide)
  | _ => trivial

end Sampler

open Sampler

variable {μ : Type} (mem : Memory μ) (cfg : Config) {E : SampleError → Prop}

/-- A fixed node guarantees its character, and that nothing is remembered, if it is not too deep. -/
theorem guarantees_fixed {n : Node} {a : Char} (hn : n.Fixed a) (path : Path) {depth : Nat}
    (hdepth : depth < cfg.maxDepth) (m : μ) :
    (mem.evaluate cfg n path depth m).Guarantees (· = (a.toString, m)) E := by
  unfold Memory.evaluate
  rw [if_neg (Nat.not_le.mpr hdepth)]
  unfold Node.Fixed at hn
  split at hn
  · exact congrArg (·, m) hn
  · refine (guarantees_ofExcept (escaped_eq_ok_iff.mpr hn)).bind fun x hx => ?_
    exact congrArg (fun x : Char => (x.toString, m)) hx
  · dsimp only
    rw [Alphabet.control?_eq_some_iff.mpr hn]
    rfl
  · rw [hn]
    rfl
  · exact hn.elim

/-- An end of a range guarantees its character, if it is fixed and not too deep. -/
theorem guarantees_onlyChar {n : Node} {a : Char} (hn : n.Fixed a) (path : Path) {depth : Nat}
    (hdepth : depth < cfg.maxDepth) (offset : UInt64) (m : μ) :
    (mem.evaluate cfg n path depth m >>= onlyChar offset).Guarantees (· = (a, m)) E := by
  refine (guarantees_fixed mem cfg hn path hdepth m).bind fun r hr => ?_
  rw [hr, onlyChar]
  simp

/-- A range guarantees its ends, if they are fixed, in order and not too deep. -/
theorem guarantees_ends {first last : Node} {a b : Char} (ha : first.Fixed a) (hb : last.Fixed b)
    (hle : a ≤ b) (path path' : Path) {depth : Nat} (hdepth : depth < cfg.maxDepth)
    (offset i j : UInt64) (m : μ) :
    (ends offset (fun m => mem.evaluate cfg first path depth m >>= onlyChar i)
      (fun m => mem.evaluate cfg last path' depth m >>= onlyChar j) m).Guarantees
        (· = (a, b, m)) E := by
  refine (guarantees_onlyChar mem cfg ha path hdepth i m).bind fun r hr => ?_
  rw [hr]
  refine (guarantees_onlyChar mem cfg hb path' hdepth j m).bind fun r hr => ?_
  rw [hr]
  dsimp only
  rw [if_neg (Char.not_lt.mpr hle)]
  rfl

mutual

/-- A well-formed tree that is not too high guarantees a text. -/
theorem guarantees_evaluate (node : Node) (hnode : node.WellFormed cfg) (path : Path) (depth : Nat)
    (hheight : depth + node.height ≤ cfg.maxDepth) (m : μ) :
    (mem.evaluate cfg node path depth m).Guarantees (fun _ => True) fun _ => False := by
  have hdepth : depth < cfg.maxDepth :=
    Nat.lt_of_lt_of_le (Nat.lt_add_of_pos_right node.height_pos) hheight
  unfold Memory.evaluate
  rw [if_neg (Nat.not_le.mpr hdepth)]
  unfold Node.WellFormed at hnode
  unfold Node.height at hheight
  change Guarantees _ _ _
  match node with
  | .alternate _ l r =>
    dsimp only at hnode hheight
    refine guarantees_boolean.bind fun b _ => ?_
    cases b
    · exact guarantees_evaluate r hnode.2 _ _ (by omega) m
    · exact guarantees_evaluate l hnode.1 _ _ (by omega) m
  | .sequence _ body =>
    dsimp only at hheight
    exact guarantees_evaluateAll body hnode _ _ _ (by omega) m
  | .group _ .capturing body =>
    dsimp only at hheight
    have hbody := guarantees_evaluate body hnode (0 :: path) (depth + 1) (by omega)
    exact (hbody _).bind fun _ _ => trivial
  | .group _ .plain body | .group _ .ahead body =>
    dsimp only at hheight
    exact guarantees_evaluate body hnode _ _ (by omega) m
  | .group _ .notAhead _ => trivial
  | .quantified _ body q =>
    dsimp only at hheight
    have hbody := guarantees_evaluate body hnode.1 (0 :: path) (depth + 1) (by omega)
    exact (guarantees_count hnode.2).bind fun n _ => guarantees_repeated hbody n m
  | .quantifier .. => trivial
  | .charset mark body true =>
    dsimp only at hheight
    obtain ⟨hbody, x, hx, hexcludes⟩ := hnode
    have hspare := guarantees_spare body hbody path 0 (depth + 1) (by omega) Alphabet.printable m
    refine hspare.bind fun r hr => ?_
    obtain ⟨hlength, hmem⟩ := hr
    -- The character that no entry strikes out is left in the pool.
    have hpool : r.1 ≠ [] := List.ne_nil_of_mem (hmem x hx hexcludes)
    have hprintable : Alphabet.printable.length ≤ 0xFFFFFFFF := by decide
    refine (guarantees_pickChar hpool (Nat.le_trans hlength hprintable)).bind fun _ _ => trivial
  | .charset mark body false =>
    dsimp only at hheight
    obtain ⟨hbody, h0, hlength⟩ := hnode
    refine (guarantees_index h0 hlength).bind fun i? hi => ?_
    obtain ⟨i, hlt, rfl⟩ := hi
    exact guarantees_evaluateNth body hbody mark.offset path 0 i (depth + 1) (by omega) hlt m
  | .range mark first last =>
    dsimp only at hheight
    obtain ⟨a, b, ha, hb, hle⟩ := hnode
    have hpos := first.height_pos
    have hinside : depth + 1 < cfg.maxDepth := by omega
    refine (guarantees_ends mem cfg ha hb hle _ _ hinside mark.offset _ _ m).bind fun r hr => ?_
    rw [hr]
    refine (guarantees_between hle).bind fun v hv => ?_
    have hscalar : scalar mark.offset v = .ok ⟨v, hv⟩ := scalar_eq_ok_iff.mpr rfl
    exact (guarantees_ofExcept hscalar).bind fun _ _ => trivial
  | .literal .. => trivial
  | .numeric mark form code =>
    obtain ⟨x, hx⟩ := hnode
    exact (guarantees_ofExcept (escaped_eq_ok_iff.mpr hx)).bind fun _ _ => trivial
  | .backReference .. => trivial
  | .control mark symbol =>
    obtain ⟨x, hx⟩ := Alphabet.exists_controls hnode
    dsimp only
    rw [Alphabet.control?_eq_some_iff.mpr hx]
    trivial
  | .token mark kind => exact (guarantees_tokenText mark.offset kind).bind fun _ _ => trivial
  | .unknown .. => trivial

/-- Well-formed trees in a row that are not too high guarantee a text. -/
theorem guarantees_evaluateAll (nodes : List Node) (hnodes : Node.AllWellFormed cfg nodes)
    (path : Path) (place depth : Nat) (hheight : depth + Node.heightAll nodes ≤ cfg.maxDepth)
    (m : μ) :
    (mem.evaluateAll cfg nodes path place depth m).Guarantees (fun _ => True) fun _ => False := by
  unfold Memory.evaluateAll
  match nodes with
  | [] => trivial
  | n :: ns =>
    simp only [Node.heightAll] at hheight
    have hn := guarantees_evaluate n hnodes.1 (place :: path) depth (by omega) m
    refine hn.bind fun r _ => ?_
    have hns := guarantees_evaluateAll ns hnodes.2 path (place + 1) depth (by omega) r.2
    exact hns.bind fun _ _ => trivial

/-- One of some well-formed trees that are not too high guarantees a text. -/
theorem guarantees_evaluateNth (nodes : List Node) (hnodes : Node.AllWellFormed cfg nodes)
    (offset : UInt64) (path : Path) (place i depth : Nat)
    (hheight : depth + Node.heightAll nodes ≤ cfg.maxDepth) (hi : i < nodes.length) (m : μ) :
    (mem.evaluateNth cfg offset nodes path place i depth m).Guarantees (fun _ => True)
      fun _ => False := by
  unfold Memory.evaluateNth
  match nodes, i with
  | [], _ => exact absurd hi (Nat.not_lt_zero _)
  | n :: ns, 0 =>
    simp only [Node.heightAll] at hheight
    exact guarantees_evaluate n hnodes.1 _ _ (by omega) m
  | n :: ns, i + 1 =>
    simp only [Node.heightAll] at hheight
    exact guarantees_evaluateNth ns hnodes.2 offset _ _ _ _ (by omega)
      (Nat.lt_of_succ_lt_succ hi) m

/-- Well-formed entries that are not too high guarantee a pool with all the characters of the one
before that none of them strikes out. -/
theorem guarantees_spare (entries : List Node) (hentries : Node.AllWellFormed cfg entries)
    (path : Path) (place depth : Nat) (hheight : depth + Node.heightAll entries ≤ cfg.maxDepth)
    (pool : List Char) (m : μ) :
    (mem.spare cfg entries path place depth pool m).Guarantees
      (fun r => r.1.length ≤ pool.length ∧
        ∀ x ∈ pool, (∀ entry ∈ entries, ¬ entry.Excludes x) → x ∈ r.1) fun _ => False := by
  unfold Memory.spare
  match entries with
  | [] => exact ⟨Nat.le_refl _, fun x hx _ => hx⟩
  | entry :: rest =>
    simp only [Node.heightAll] at hheight
    obtain ⟨hentry, hothers⟩ := hentries
    -- It is enough to keep what the first entry does not strike out.
    have hstep (pool' : List Char) (hlength : pool'.length ≤ pool.length)
        (hkeep : ∀ x ∈ pool, ¬ entry.Excludes x → x ∈ pool') (m' : μ) :
        (mem.spare cfg rest path (place + 1) depth pool' m').Guarantees
          (fun r => r.1.length ≤ pool.length ∧
            ∀ x ∈ pool, (∀ e ∈ entry :: rest, ¬ e.Excludes x) → x ∈ r.1) fun _ => False := by
      have hrest := guarantees_spare rest hothers path (place + 1) depth (by omega) pool' m'
      refine hrest.imp fun r hr => ⟨Nat.le_trans hr.1 hlength, fun x hx hexcludes => ?_⟩
      obtain ⟨hfirst, hlater⟩ := List.forall_mem_cons.mp hexcludes
      exact hr.2 x (hkeep x hx hfirst) hlater
    unfold Node.WellFormed at hentry
    unfold Node.height at hheight
    match entry, hentry, hheight, hstep with
    | .literal _ a _, _, _, hstep =>
      refine hstep _ (List.length_filter_le _ _) (fun x hx hexcludes => ?_) m
      exact List.mem_filter.mpr ⟨hx, decide_eq_true hexcludes⟩
    | .range mark first last, hentry, hheight, hstep =>
      dsimp only at hheight
      obtain ⟨a, b, ha, hb, hle⟩ := hentry
      have hpos := first.height_pos
      have hinside : depth < cfg.maxDepth := by omega
      change Guarantees _ _ _
      refine (guarantees_ends mem cfg ha hb hle _ _ hinside mark.offset _ _ m).bind fun r hr => ?_
      rw [hr]
      refine hstep _ ?_ (fun x hx hexcludes => ?_) m
      · exact Nat.le_trans (length_withoutShorthand_le _ _) (List.length_filter_le _ _)
      · have hout : ¬ (a ≤ x ∧ x ≤ b) := fun hin => hexcludes (.inl ⟨a, b, ha, hb, hin⟩)
        have hspelled : ¬ Alphabet.Spelled mark.text x := fun h => hexcludes (.inr h)
        exact mem_withoutShorthand.mpr
          ⟨List.mem_filter.mpr ⟨hx, decide_eq_true hout⟩, hspelled⟩
    | .alternate .., _, _, hstep | .sequence .., _, _, hstep | .group .., _, _, hstep
    | .quantified .., _, _, hstep | .quantifier .., _, _, hstep | .charset .., _, _, hstep
    | .numeric .., _, _, hstep | .backReference .., _, _, hstep | .control .., _, _, hstep
    | .token .., _, _, hstep | .unknown .., _, _, hstep =>
      refine hstep _ (length_withoutShorthand_le _ _) (fun x hx hexcludes => ?_) m
      exact mem_withoutShorthand.mpr ⟨hx, hexcludes⟩

end

/-- A sample of a well-formed pattern that is not too high always succeeds, as long as integers are
given within their bounds. -/
theorem exists_sample {σ : Type} (src : Source σ) (hsrc : src.KeepsIntegers) (cfg : Config)
    (node : Node) (hnode : node.WellFormed cfg) (hheight : node.height ≤ cfg.maxDepth) (s : σ) :
    ∃ text, ((sample cfg node).run src s).result = .ok text := by
  have hbody := guarantees_evaluate Captures.memory cfg node hnode [] 0 (by omega) { }
  have hsample : (sample cfg node).Guarantees (fun _ => True) fun _ => False := by
    rw [sample_eq_memory]
    exact hbody.bind fun _ _ => trivial
  rcases hsample.run hsrc s with ⟨text, htext, -⟩ | ⟨_, -, hfalse⟩
  · exact ⟨text, htext⟩
  · exact hfalse.elim

/-- Characters around the surrogates in a group, a printable one that neither stands in words nor
comes before the digits, a line feed, and the group again. -/
def Node.aroundSurrogates : Node :=
  ofSequence
    [capture (repeated
        (oneOf [.range { } (.numeric { } .unicode "d7ff") (ofEscapedChar '\uFFFD')] false)
        (times (-1) none)),
      oneOf [span ' ' '/', spelled (.token { } .word)] true, .control { } 'J', backTo 1]

/-- Nothing can go wrong in it: the colon is left for the sign, and the least of everything makes a
sample. -/
theorem exists_sample_aroundSurrogates :
    Source.lowest.KeepsIntegers ∧ Node.aroundSurrogates.WellFormed { } ∧
      Node.aroundSurrogates.height ≤ 256 ∧
      ∃ text, ((sample { } .aroundSurrogates).run Source.lowest ()).result = .ok text := by
  have hsrc := Source.lowest_inBounds.keepsIntegers
  have hrange : (Node.range { } (.numeric { } .unicode "d7ff") (.ofEscapedChar '\uFFFD')).WellFormed
      { } := by
    have hdenotes : Numeral.Denotes 16 "d7ff" '\uD7FF'.toNat :=
      ⟨['d', '7', 'f', 'f'], [13, 7, 15, 15], .inl rfl, rfl, by decide, rfl⟩
    exact ⟨'\uD7FF', '\uFFFD', hdenotes, rfl, by decide⟩
  have hrepeats : (Node.times (-1) none).Repeats { } := by
    simp only [Node.times, Node.Repeats]
    decide
  have hspan : (Node.span ' ' '/').WellFormed { } := ⟨' ', '/', rfl, rfl, by decide⟩
  have hcolon : ∀ entry ∈ [Node.span ' ' '/', .spelled (.token { } .word)],
      ¬ entry.Excludes ':' := by
    have hspelled {text : String} (h : ':' ∈ withoutShorthand text [':']) :
        ¬ Alphabet.Spelled text ':' := (mem_withoutShorthand.mp h).2
    simp only [List.forall_mem_cons]
    refine ⟨?_, hspelled (by decide), nofun⟩
    rintro (⟨a, b, -, hb, -, hle⟩ | h)
    · rw [hb.unique (show (Node.ofChar '/').Fixed '/' from rfl)] at hle
      exact absurd hle (by decide)
    · exact hspelled (by decide) h
  have hnode : Node.aroundSurrogates.WellFormed { } :=
    ⟨⟨⟨⟨hrange, trivial⟩, by decide, by decide⟩, hrepeats⟩,
      ⟨⟨hspan, trivial, trivial⟩, ':', by decide, hcolon⟩, ⟨by decide, by decide⟩, trivial,
      trivial⟩
  have hheight : Node.aroundSurrogates.height ≤ 256 := by decide
  exact ⟨hsrc, hnode, hheight,
    exists_sample Source.lowest hsrc { } .aroundSurrogates hnode hheight ()⟩

end PatternSampler
