import PatternSampler.Proofs.Meaning

/-!
# The samples of a pattern

A text is `Generable` from a pattern if some source that keeps to its bounds makes `sample` give it.
`generable_iff_yields` shows that these are the texts that the pattern means. The limits on a sample
only matter for patterns that reach them: where the tree is not too high, and no set has more
members than a word can count, they may be left out of the meaning.
-/

namespace PatternSampler

/-- A text that some source in bounds makes a sample of a pattern give. -/
def Generable (cfg : Config) (node : Node) (s : String) : Prop :=
  ∃ (σ : Type) (src : Source σ) (start : σ), src.InBounds ∧
    ((sample cfg node).run src start).result = .ok s

/-- A text is generable if the interpreter may give it when nothing is captured yet. -/
theorem generable_iff_mayGive {cfg : Config} {node : Node} {s : String} :
    Generable cfg node s ↔
      ∃ c, (Captures.memory.evaluate cfg node [] 0 { }).MayGive (s, c) := by
  unfold Generable
  rw [← Sampler.mayGive_iff_exists_run, sample_eq_memory, Memory.sample, Sampler.mayGive_bind]
  simp only [Sampler.tell_bind, Sampler.mayGive_note, Sampler.mayGive_pure]
  constructor
  · intro h
    obtain ⟨⟨_, c⟩, hc, rfl⟩ := h
    exact ⟨c, hc⟩
  · intro h
    obtain ⟨c, hc⟩ := h
    exact ⟨(s, c), hc, rfl⟩

namespace Node

mutual

/-- How many nodes lie on the longest way down from a node, the node included. -/
def height : Node → Nat
  | alternate _ l r => max l.height r.height + 1
  | quantified _ body q => max body.height q.height + 1
  | range _ first last => max first.height last.height + 1
  | sequence _ body => heightAll body + 1
  | charset _ body _ => heightAll body + 1
  | group _ _ body => body.height + 1
  | _ => 1

/-- The largest height of some nodes. -/
def heightAll : List Node → Nat
  | [] => 0
  | n :: ns => max n.height (heightAll ns)

end

mutual

/-- The number of members of the largest set in a tree. -/
def widest : Node → Nat
  | alternate _ l r => max l.widest r.widest
  | quantified _ body q => max body.widest q.widest
  | range _ first last => max first.widest last.widest
  | sequence _ body => widestAll body
  | charset _ body _ => max body.length (widestAll body)
  | group _ _ body => body.widest
  | _ => 0

/-- The number of members of the largest set in some trees. -/
def widestAll : List Node → Nat
  | [] => 0
  | n :: ns => max n.widest (widestAll ns)

end

variable (cfg : Config)

mutual

/-- The limits of a sample change nothing about a tree that keeps to them. -/
theorem yields_room (node : Node) (path : Path) (depth : Nat)
    (hheight : depth + node.height ≤ cfg.maxDepth) (hwidest : node.widest ≤ 0xFFFFFFFF) :
    Yields cfg.room cfg node path depth = Yields Room.unlimited cfg node path depth := by
  -- The node itself counts for its height, so there is room for it.
  have hpos : 0 < node.height := by
    unfold height
    split <;> exact Nat.zero_lt_succ _
  have hroom : cfg.room.depth depth := Nat.lt_of_lt_of_le (Nat.lt_add_of_pos_right hpos) hheight
  have hdepth : cfg.room.depth depth = Room.unlimited.depth depth := propext (iff_true_intro hroom)
  funext c s c'
  unfold Yields
  rw [hdepth]
  refine congrArg _ ?_
  match node with
  | .alternate _ l r =>
    simp only [height, widest] at hheight hwidest ⊢
    have hl := yields_room l (0 :: path) (depth + 1) (by omega) (by omega)
    have hr := yields_room r (1 :: path) (depth + 1) (by omega) (by omega)
    rw [hl, hr]
  | .sequence _ body =>
    simp only [height, widest] at hheight hwidest ⊢
    have hbody := yieldsAll_room body path 0 (depth + 1) (by omega) hwidest
    rw [hbody]
  | .group _ .capturing body | .group _ .plain body | .group _ .ahead body =>
    simp only [height, widest] at hheight hwidest ⊢
    have hbody := yields_room body (0 :: path) (depth + 1) (by omega) hwidest
    rw [hbody]
  | .quantified _ body q =>
    simp only [height, widest] at hheight hwidest ⊢
    have hbody := yields_room body (0 :: path) (depth + 1) (by omega) (by omega)
    rw [hbody]
  | .charset _ body true =>
    simp only [height, widest] at hheight hwidest ⊢
    have hbody := survives_room body path 0 (depth + 1) (by omega) (by omega)
    rw [hbody]
  | .charset _ body false =>
    simp only [height, widest] at hheight hwidest ⊢
    have hlength : cfg.room.members body.length := by
      change body.length ≤ 0xFFFFFFFF
      omega
    have hmembers : cfg.room.members body.length = Room.unlimited.members body.length :=
      propext (iff_true_intro hlength)
    have hbody := yieldsSome_room body path 0 (depth + 1) (by omega) (by omega)
    rw [hmembers, hbody]
  | .range _ first last =>
    simp only [height, widest] at hheight hwidest ⊢
    have hfirst := yields_room first (0 :: path) (depth + 1) (by omega) (by omega)
    have hlast := yields_room last (1 :: path) (depth + 1) (by omega) (by omega)
    rw [hfirst, hlast]
  | .group _ .notAhead _ | .quantifier .. | .literal .. | .numeric .. | .backReference ..
  | .control .. | .token .. | .unknown .. => rfl

/-- The limits of a sample change nothing about trees in a row that keep to them. -/
theorem yieldsAll_room (nodes : List Node) (path : Path) (place depth : Nat)
    (hheight : depth + heightAll nodes ≤ cfg.maxDepth) (hwidest : widestAll nodes ≤ 0xFFFFFFFF) :
    YieldsAll cfg.room cfg nodes path place depth =
      YieldsAll Room.unlimited cfg nodes path place depth := by
  funext c s c'
  unfold YieldsAll
  match nodes with
  | [] => rfl
  | n :: ns =>
    simp only [heightAll, widestAll] at hheight hwidest ⊢
    have hn := yields_room n (place :: path) depth (by omega) (by omega)
    have hns := yieldsAll_room ns path (place + 1) depth (by omega) (by omega)
    rw [hn, hns]

/-- The limits of a sample change nothing about a choice of trees that keep to them. -/
theorem yieldsSome_room (nodes : List Node) (path : Path) (place depth : Nat)
    (hheight : depth + heightAll nodes ≤ cfg.maxDepth) (hwidest : widestAll nodes ≤ 0xFFFFFFFF) :
    YieldsSome cfg.room cfg nodes path place depth =
      YieldsSome Room.unlimited cfg nodes path place depth := by
  funext c s c'
  unfold YieldsSome
  match nodes with
  | [] => rfl
  | n :: ns =>
    simp only [heightAll, widestAll] at hheight hwidest ⊢
    have hn := yields_room n (place :: path) depth (by omega) (by omega)
    have hns := yieldsSome_room ns path (place + 1) depth (by omega) (by omega)
    rw [hn, hns]

/-- The limits of a sample change nothing about what survives entries that keep to them. -/
theorem survives_room (entries : List Node) (path : Path) (place depth : Nat)
    (hheight : depth + heightAll entries ≤ cfg.maxDepth)
    (hwidest : widestAll entries ≤ 0xFFFFFFFF) :
    Survives cfg.room cfg entries path place depth =
      Survives Room.unlimited cfg entries path place depth := by
  funext x c c'
  unfold Survives
  match entries with
  | [] => rfl
  | entry :: rest =>
    simp only [heightAll, widestAll] at hheight hwidest ⊢
    have hrest := survives_room rest path (place + 1) depth (by omega) (by omega)
    match entry with
    | .range mark first last =>
      -- The ends lie two levels below the set, but only one is counted.
      simp only [height, widest] at hheight hwidest ⊢
      have hfirst := yields_room first (0 :: place :: path) depth (by omega) (by omega)
      have hlast := yields_room last (1 :: place :: path) depth (by omega) (by omega)
      rw [hrest, hfirst, hlast]
    | .alternate .. | .sequence .. | .group .. | .quantified .. | .quantifier .. | .charset ..
    | .literal .. | .numeric .. | .backReference .. | .control .. | .token .. | .unknown .. =>
      simp only [hrest]

end

end Node

/-- The texts that sources in bounds make a sample give are those that the pattern means within the
limits of the sample. Where the tree and its sets keep to the limits, they are all the texts that
the pattern means. -/
theorem generable_iff_yields (cfg : Config) (node : Node) (s : String) :
    (Generable cfg node s ↔ ∃ c, node.Yields cfg.room cfg [] 0 { } s c) ∧
      (node.height ≤ cfg.maxDepth → node.widest ≤ 0xFFFFFFFF →
        (Generable cfg node s ↔ ∃ c, node.Yields Room.unlimited cfg [] 0 { } s c)) := by
  have hroom : Generable cfg node s ↔ ∃ c, node.Yields cfg.room cfg [] 0 { } s c := by
    rw [generable_iff_mayGive]
    exact exists_congr fun c => mayGive_evaluate cfg node [] 0 { } s c
  refine ⟨hroom, fun hheight hwidest => ?_⟩
  -- The tree keeps to the limits, so the relation is the same without them.
  have hyields := node.yields_room cfg [] 0 (by omega) hwidest
  rw [hroom, hyields]

/-- A letter in a group, and then what the group has captured. -/
def Node.letterTwice (first last : Char) : Node :=
  .sequence { } [.group { } .capturing (.letterBetween first last), .backReference { } 1]

/-- Some source makes a sample give the least letter twice, so that this is what the pattern means,
and it does not mean two letters that differ. -/
theorem generable_letterTwice :
    let node := Node.letterTwice 'b' 'y'
    (node.height ≤ 256 ∧ node.widest ≤ 0xFFFFFFFF) ∧
      (∃ c, node.Yields Room.unlimited { } [] 0 { } "bb" c) ∧ ¬ Generable { } node "bc" := by
  intro node
  have hheight : node.height ≤ 256 := by decide
  have hwidest : node.widest ≤ 0xFFFFFFFF := by decide
  refine ⟨⟨hheight, hwidest⟩, ?_, ?_⟩
  · have hrun : Generable { } node "bb" :=
      ⟨Unit, Source.lowest, (), Source.lowest_inBounds, rfl⟩
    exact ((generable_iff_yields { } node "bb").2 hheight hwidest).mp hrun
  · intro h
    obtain ⟨c, hc⟩ := ((generable_iff_yields { } node "bc").2 hheight hwidest).mp h
    -- The first text is one character, which is kept under the number that is then referred to.
    obtain ⟨-, _, _, _, ⟨-, c₁, ⟨-, _, _, x, rfl, -⟩, rfl⟩, hrefer, hs⟩ := hc
    obtain ⟨_, _, _, ⟨-, rfl, rfl⟩, ⟨rfl, -⟩, rfl⟩ := hrefer
    have hkept : (c₁.keep 1 x.toString).kept 1 = x.toString := by
      rw [Captures.kept_keep, if_pos rfl]
    have htwice : "bc" = x.toString ++ ((c₁.keep 1 x.toString).kept 1 ++ "") := hs
    have hx : "bc".toList = [x, x] := by
      rw [htwice, hkept]
      simp
    cases hx

end PatternSampler
