import PatternSampler.Proofs.BottomUp
import PatternSampler.Proofs.Numerals

/-!
# What a pattern means

`Node.Yields` relates what is captured before a node, a text of the node, and what is captured after
it. It says which texts a pattern stands for without saying how one is chosen: there are no sources
and no words in it, only characters, numbers and the captured texts that are handed from part to
part. `Room` tells how deep a pattern may go and from how many members one may be taken, so that the
same relation describes patterns with and without these limits.

`mayGive_evaluate` shows that the interpreter may give just the texts that the relation allows.
-/

namespace PatternSampler

/-- How a text comes about: from what is captured before it, with what is captured after it. -/
abbrev Effect := Captures Path → String → Captures Path → Prop

namespace Effect

/-- One effect after the other. -/
def andThen (e f : Effect) : Effect := fun c s c' =>
  ∃ s₁ c₁ s₂, e c s₁ c₁ ∧ f c₁ s₂ c' ∧ s = s₁ ++ s₂

/-- An effect a number of times in a row. -/
def times (e : Effect) : Nat → Effect
  | 0 => fun c s c' => s = "" ∧ c' = c
  | n + 1 => e.andThen (e.times n)

/-- Two effects, one after the other, that give the ends of a range, in order. -/
def Ends (e f : Effect) (c : Captures Path) (a b : Char) (c' : Captures Path) : Prop :=
  ∃ c₁, e c a.toString c₁ ∧ f c₁ b.toString c' ∧ a ≤ b

/-- The ends of a range are in order. -/
theorem Ends.le {e f : Effect} {c c' : Captures Path} {a b : Char} (h : Ends e f c a b c') :
    a ≤ b := by
  obtain ⟨c₁, -, -, hle⟩ := h
  exact hle

end Effect

/-- A character is in the class that a text spells, if it spells one. -/
def Alphabet.Spelled (text : String) (x : Char) : Prop :=
  ∃ shorthand, Alphabet.Shorthand.ofText? text = some shorthand ∧ x ∈ shorthand.members

/-- A text is one character that is in a pool. -/
def Alphabet.OneOf (pool : List Char) (s : String) : Prop :=
  ∃ x : Char, s = x.toString ∧ x ∈ pool

/-- The texts of a leaf without content. -/
def Token.Yields : Token → String → Prop
  | .start, s | .finish, s | .backspace, s | .wordBoundary, s | .nonWordBoundary, s | .formFeed, s
  | .carriageReturn, s | .tab, s | .verticalTab, s | .nullCharacter, s => s = ""
  | .lineFeed, s => s = "\n"
  | .anyCharacter, s => ∃ x : Char, s = x.toString ∧ 0x20 ≤ x.toNat ∧ x.toNat ≤ 0x7E
  | .digit, s => Alphabet.OneOf Alphabet.number s
  | .nonDigit, s => Alphabet.OneOf Alphabet.nonDigit s
  | .whiteSpace, s => Alphabet.OneOf Alphabet.space s
  | .nonWhiteSpace, s | .word, s => Alphabet.OneOf Alphabet.alnum s
  | .nonWord, s => Alphabet.OneOf Alphabet.other s

/-- The character that a symbol stands for as a control character. -/
def Alphabet.Controls (symbol x : Char) : Prop :=
  symbol.toNat ≤ 0x5F ∧ x.toNat + 0x40 = symbol.toNat

/-- What is captured when a group has been entered, and the number of the group. -/
def Captures.entered (c : Captures Path) (path : Path) : Nat × Captures Path :=
  match c.number? path with
  | some number => (number, c)
  | none => (c.nextNumber, c.add path)

/-- How much there may be of a pattern. -/
structure Room where
  /-- Whether a node may have a number of nodes above it. -/
  depth : Nat → Prop
  /-- Whether one of a number of members may be taken. -/
  members : Nat → Prop

/-- There may be any number of everything. -/
def Room.unlimited : Room := ⟨fun _ => True, fun _ => True⟩

/-- The room that a sample has: the depth is limited, and a choice is asked for by a word. -/
def Config.room (cfg : Config) : Room := ⟨(· < cfg.maxDepth), (· ≤ 0xFFFFFFFF)⟩

namespace Node

mutual

/-- The texts of a node with a number of nodes above it. -/
def Yields (room : Room) (cfg : Config) (node : Node) (path : Path) (depth : Nat) : Effect :=
  fun c s c' => room.depth depth ∧
    match node with
    | .alternate _ l r =>
      Yields room cfg l (0 :: path) (depth + 1) c s c' ∨
        Yields room cfg r (1 :: path) (depth + 1) c s c'
    | .sequence _ body => YieldsAll room cfg body path 0 (depth + 1) c s c'
    | .group _ .capturing body =>
      ∃ c₁, Yields room cfg body (0 :: path) (depth + 1) (c.entered path).2 s c₁ ∧
        c' = c₁.keep (c.entered path).1 s
    | .group _ .plain body | .group _ .ahead body =>
      Yields room cfg body (0 :: path) (depth + 1) c s c'
    | .group _ .notAhead _ => s = "" ∧ c' = c
    | .quantified _ body q =>
      ∃ n, q.Counts cfg n ∧
        Effect.times (Yields room cfg body (0 :: path) (depth + 1)) n c s c'
    | .quantifier .. => s = "" ∧ c' = c
    | .charset _ body true =>
      ∃ x : Char, s = x.toString ∧ x ∈ Alphabet.printable ∧
        Survives room cfg body path 0 (depth + 1) x c c'
    | .charset _ body false =>
      room.members body.length ∧ YieldsSome room cfg body path 0 (depth + 1) c s c'
    | .range _ first last =>
      ∃ a b x : Char, s = x.toString ∧ a ≤ x ∧ x ≤ b ∧
        Effect.Ends (Yields room cfg first (0 :: path) (depth + 1))
          (Yields room cfg last (1 :: path) (depth + 1)) c a b c'
    | .literal mark x isEscaped => s = (if isEscaped then x.toString else mark.text) ∧ c' = c
    | .numeric _ form code =>
      ∃ x : Char, s = x.toString ∧ Numeral.Denotes form.base code x.toNat ∧ c' = c
    | .backReference _ code => s = c.kept code.toNat ∧ c' = c
    | .control _ code => ∃ x : Char, s = x.toString ∧ Alphabet.Controls code x ∧ c' = c
    | .token _ kind => kind.Yields s ∧ c' = c
    | .unknown mark => s = mark.text ∧ c' = c

/-- The texts of some nodes in a row, the first of which has a given place. -/
def YieldsAll (room : Room) (cfg : Config) (nodes : List Node) (path : Path) (place depth : Nat) :
    Effect := fun c s c' =>
  match nodes with
  | [] => s = "" ∧ c' = c
  | n :: ns =>
    Effect.andThen (Yields room cfg n (place :: path) depth)
      (YieldsAll room cfg ns path (place + 1) depth) c s c'

/-- The texts of any of some nodes, the first of which has a given place. -/
def YieldsSome (room : Room) (cfg : Config) (nodes : List Node) (path : Path) (place depth : Nat) :
    Effect := fun c s c' =>
  match nodes with
  | [] => False
  | n :: ns =>
    Yields room cfg n (place :: path) depth c s c' ∨
      YieldsSome room cfg ns path (place + 1) depth c s c'

/-- A character is struck out by none of some entries. The ends of a range are produced as texts
are, so they may change what is captured. -/
def Survives (room : Room) (cfg : Config) (entries : List Node) (path : Path) (place depth : Nat)
    (x : Char) (c c' : Captures Path) : Prop :=
  match entries with
  | [] => c' = c
  | .literal _ a _ :: rest => x ≠ a ∧ Survives room cfg rest path (place + 1) depth x c c'
  | .range mark first last :: rest =>
    ∃ a b c₁,
      Effect.Ends (Yields room cfg first (0 :: place :: path) depth)
        (Yields room cfg last (1 :: place :: path) depth) c a b c₁ ∧
      ¬ (a ≤ x ∧ x ≤ b) ∧ ¬ Alphabet.Spelled mark.text x ∧
      Survives room cfg rest path (place + 1) depth x c₁ c'
  | entry :: rest =>
    ¬ Alphabet.Spelled entry.text x ∧ Survives room cfg rest path (place + 1) depth x c c'

end

end Node

/-- Entering a group as `Captures.memory` does gives its number and what is captured then. -/
theorem Captures.memory_enter (c : Captures Path) (path : Path) :
    (memory.enter path c).1 = (c.entered path).1 ∧
      (memory.enter path c).2.2 = (c.entered path).2 := by
  unfold memory entered
  cases h : c.number? path <;> simp only [h, and_self]

namespace Alphabet

/-- The symbols of control characters stand for characters a fixed distance below them. -/
theorem control?_eq_some_iff {symbol x : Char} :
    control? symbol = some x ↔ Controls symbol x := by
  -- There are only as many control characters as there are symbols for them.
  have hrow : ∀ i < 32, control? (Char.ofNat (i + 0x40)) = some (Char.ofNat i) := by decide
  unfold Controls
  constructor
  · intro h
    have hmem : symbol ∈ interval 0x40 0x5F := by
      refine Decidable.not_not.mp fun hmem => ?_
      rw [control?, controlSymbols, List.idxOf?_eq_none_iff.mpr hmem] at h
      cases h
    obtain ⟨hle, hge⟩ := (mem_interval (by decide)).mp hmem
    have hx := hrow (symbol.toNat - 0x40) (by omega)
    rw [Nat.sub_add_cancel hle, Char.ofNat_toNat, h, Option.some.injEq] at hx
    rw [hx, toNat_ofNat (by omega)]
    omega
  · rintro ⟨hle, heq⟩
    have hx := hrow x.toNat (by omega)
    rwa [heq, Char.ofNat_toNat, Char.ofNat_toNat] at hx

end Alphabet

namespace Sampler

/-- A character that is made a text gives the texts of one character. -/
theorem mayGive_charText {p : Sampler Char} {c c' : Captures Path} {s : String} :
    (p >>= fun x => pure (x.toString, c)).MayGive (s, c') ↔
      ∃ x : Char, s = x.toString ∧ p.MayGive x ∧ c' = c := by
  simp only [mayGive_bind, mayGive_pure, Prod.mk.injEq]
  exact exists_congr fun x => and_left_comm

/-- The one character of a text may be given if the text may. -/
theorem mayGive_onlyChar {p : Sampler (String × Captures Path)} {offset : UInt64} {a : Char}
    {c : Captures Path} :
    (p >>= onlyChar offset).MayGive (a, c) ↔ p.MayGive (a.toString, c) := by
  rw [mayGive_bind]
  constructor
  · rintro ⟨⟨s, c₁⟩, hp, h⟩
    dsimp only [onlyChar] at h
    split at h
    · next b hs =>
      cases h
      rwa [Char.toString, String.singleton_eq_ofList, ← hs, String.ofList_toList]
    · exact h.elim
  · intro h
    refine ⟨_, h, ?_⟩
    simp [onlyChar]

/-- The ends of a range may be given if their texts may. -/
theorem mayGive_ends {first last : Captures Path → Sampler (String × Captures Path)} {e f : Effect}
    (he : ∀ c s c', (first c).MayGive (s, c') ↔ e c s c')
    (hf : ∀ c s c', (last c).MayGive (s, c') ↔ f c s c') (offset i j : UInt64)
    (c : Captures Path) (a b : Char) (c' : Captures Path) :
    (ends offset (fun c => first c >>= onlyChar i) (fun c => last c >>= onlyChar j) c).MayGive
        (a, b, c') ↔ Effect.Ends e f c a b c' := by
  have hfirst (c a c') : (first c >>= onlyChar i).MayGive (a, c') ↔ e c a.toString c' :=
    mayGive_onlyChar.trans (he c _ c')
  have hlast (c b c') : (last c >>= onlyChar j).MayGive (b, c') ↔ f c b.toString c' :=
    mayGive_onlyChar.trans (hf c _ c')
  unfold ends
  constructor
  · intro h
    obtain ⟨⟨a', c₁⟩, ha, h⟩ := mayGive_bind.mp h
    obtain ⟨⟨b', c₂⟩, hb, h⟩ := mayGive_bind.mp h
    dsimp only at h
    split at h
    · exact h.elim
    · next hle =>
      cases h
      exact ⟨c₁, (hfirst _ _ _).mp ha, (hlast _ _ _).mp hb, Char.not_lt.mp hle⟩
  · intro h
    obtain ⟨c₁, ha, hb, hle⟩ := h
    refine mayGive_bind.mpr ⟨(a, c₁), (hfirst _ _ _).mpr ha, ?_⟩
    refine mayGive_bind.mpr ⟨(b, c'), (hlast _ _ _).mpr hb, ?_⟩
    dsimp only
    rw [if_neg (Char.not_lt.mpr hle)]
    rfl

/-- A character between two others that is made a text gives the texts of the characters there. -/
theorem mayGive_rangeText {offset : UInt64} {a b : Char} (h : a ≤ b) {c c' : Captures Path}
    {s : String} :
    (do
        let value ← between a b
        let x ← ofExcept (scalar offset value)
        pure (x.toString, c)).MayGive (s, c') ↔
      ∃ x : Char, s = x.toString ∧ (a ≤ x ∧ x ≤ b) ∧ c' = c := by
  simp only [← bind_assoc, mayGive_charText, mayGive_between_scalar h]

/-- Steps in a row may give what their effects in a row allow. -/
theorem mayGive_repeated {step : Captures Path → Sampler (String × Captures Path)} {e : Effect}
    (he : ∀ c s c', (step c).MayGive (s, c') ↔ e c s c') {n : Nat} {c c' : Captures Path}
    {s : String} : (repeated step n c).MayGive (s, c') ↔ e.times n c s c' := by
  induction n generalizing c c' s with
  | zero => simp [repeated, Effect.times]
  | succ n ih =>
    simp only [repeated, Effect.times, Effect.andThen, mayGive_bind, Prod.exists, he, ih,
      mayGive_pure, Prod.mk.injEq]
    constructor
    · rintro ⟨s₁, c₁, h₁, s₂, c₂, h₂, rfl, rfl⟩
      exact ⟨s₁, c₁, s₂, h₁, h₂, rfl⟩
    · rintro ⟨s₁, c₁, s₂, h₁, h₂, rfl⟩
      exact ⟨s₁, c₁, h₁, s₂, c', h₂, rfl, rfl⟩

/-- A character picked from a small pool may be any character of it. -/
theorem mayGive_toString_pickChar {offset : UInt64} {pool : List Char} (h : pool.length ≤ 0xFF)
    {s : String} :
    (Char.toString <$> pickChar offset pool).MayGive s ↔ Alphabet.OneOf pool s := by
  simp only [mayGive_map, mayGive_pickChar, Alphabet.OneOf]
  constructor
  · rintro ⟨x, ⟨hx, -⟩, rfl⟩
    exact ⟨x, rfl, hx⟩
  · rintro ⟨x, rfl, hx⟩
    exact ⟨x, ⟨hx, by omega⟩, rfl⟩

/-- A leaf without content may give its texts. -/
theorem mayGive_tokenText {offset : UInt64} {kind : Token} {s : String} :
    (tokenText offset kind).MayGive s ↔ kind.Yields s := by
  cases kind
  all_goals simp only [tokenText, Token.Yields, mayGive_pure, bind_pure_comp]
  case anyCharacter =>
    simp only [mayGive_map, mayGive_character]
    exact exists_congr fun x => and_comm
  all_goals exact mayGive_toString_pickChar (by decide)

end Sampler

/-- The characters of a pool that are not struck out by the class that a text spells. -/
theorem mem_withoutShorthand {text : String} {pool : List Char} {x : Char} :
    x ∈ withoutShorthand text pool ↔ x ∈ pool ∧ ¬ Alphabet.Spelled text x := by
  unfold withoutShorthand Alphabet.Spelled
  cases Alphabet.Shorthand.ofText? text <;> simp

/-- Striking out a class makes a pool no longer. -/
theorem length_withoutShorthand_le (text : String) (pool : List Char) :
    (withoutShorthand text pool).length ≤ pool.length := by
  unfold withoutShorthand
  split
  · exact List.length_filter_le _ _
  · exact Nat.le_refl _

open Sampler

mutual

/-- The interpreter may give just the texts that the relation allows, with what is captured then. -/
theorem mayGive_evaluate (cfg : Config) (node : Node) (path : Path) (depth : Nat)
    (c : Captures Path) (s : String) (c' : Captures Path) :
    (Captures.memory.evaluate cfg node path depth c).MayGive (s, c') ↔
      node.Yields cfg.room cfg path depth c s c' := by
  unfold Memory.evaluate Node.Yields
  split
  · next h =>
    -- The node lies too deep.
    rw [mayGive_fail, false_iff]
    exact fun hy => Nat.not_le.mpr hy.1 h
  · next h =>
    have hroom : cfg.room.depth depth := Nat.lt_of_not_le h
    rw [mayGive_note, iff_true_intro hroom, true_and]
    match node with
    | .alternate _ l r =>
      simp only [mayGive_bind, mayGive_boolean, true_and, Bool.exists_bool, Bool.false_eq_true,
        if_false, if_true]
      rw [mayGive_evaluate cfg l, mayGive_evaluate cfg r, or_comm]
    | .sequence _ body => exact mayGive_evaluateAll cfg body _ _ _ _ _ _
    | .group mark .capturing body =>
      -- The number is settled when the group is entered, and the text is kept when it is left.
      obtain ⟨hnumber, hentered⟩ := c.memory_enter path
      simp only [tell_bind, mayGive_note, mayGive_bind, mayGive_pure, Prod.exists, Prod.mk.injEq,
        mayGive_evaluate cfg body, hnumber, hentered]
      constructor
      · rintro ⟨_, c₁, hbody, rfl, rfl⟩
        exact ⟨c₁, hbody, rfl⟩
      · rintro ⟨c₁, hbody, rfl⟩
        exact ⟨s, c₁, hbody, rfl, rfl⟩
    | .group _ .plain body => exact mayGive_evaluate cfg body _ _ _ _ _
    | .group _ .ahead body => exact mayGive_evaluate cfg body _ _ _ _ _
    | .group _ .notAhead _ => simp
    | .quantified _ body q =>
      simp only [mayGive_bind, mayGive_count]
      exact exists_congr fun n =>
        and_congr_right fun _ => mayGive_repeated (mayGive_evaluate cfg body _ _)
    | .quantifier .. => simp
    | .charset mark body true =>
      -- What is left of the printable characters is a pool that any of them can be picked from.
      have hprintable : Alphabet.printable.length ≤ 0xFFFFFFFF := by decide
      have hspare (x : Char) := mayGive_spare cfg body path 0 (depth + 1) _ hprintable x c c'
      dsimp only
      rw [mayGive_bind]
      constructor
      · rintro ⟨⟨pool, c₁⟩, hpool, h⟩
        obtain ⟨x, rfl, hx, rfl⟩ := mayGive_charText.mp h
        exact ⟨x, rfl, (hspare x).mp ⟨pool, hpool, mayGive_pickChar.mp hx⟩⟩
      · rintro ⟨x, rfl, hx⟩
        obtain ⟨pool, hpool, hx⟩ := (hspare x).mpr hx
        exact ⟨(pool, c'), hpool, mayGive_charText.mpr ⟨x, rfl, mayGive_pickChar.mpr hx, rfl⟩⟩
    | .charset mark body false =>
      dsimp only
      rw [mayGive_bind, ← mayGive_evaluateNth cfg body mark.offset]
      constructor
      · rintro ⟨_ | i, hi, h⟩
        · -- A set without members gives nothing.
          exact h.elim
        · obtain ⟨hlt, hmembers⟩ := mayGive_index.mp hi
          exact ⟨hmembers, i, hlt, h⟩
      · rintro ⟨hmembers, i, hlt, h⟩
        exact ⟨some i, mayGive_index.mpr ⟨hlt, hmembers⟩, h⟩
    | .range mark first last =>
      have hends := mayGive_ends (mayGive_evaluate cfg first (0 :: path) (depth + 1))
        (mayGive_evaluate cfg last (1 :: path) (depth + 1)) mark.offset first.offset last.offset c
      dsimp only
      rw [mayGive_bind]
      constructor
      · rintro ⟨⟨a, b, c₁⟩, hab, h⟩
        have hab := (hends _ _ _).mp hab
        obtain ⟨x, rfl, hx, rfl⟩ := (mayGive_rangeText hab.le).mp h
        exact ⟨a, b, x, rfl, hx.1, hx.2, hab⟩
      · rintro ⟨a, b, x, rfl, hax, hxb, hab⟩
        refine ⟨(a, b, c'), (hends _ _ _).mpr hab, ?_⟩
        exact (mayGive_rangeText hab.le).mpr ⟨x, rfl, ⟨hax, hxb⟩, rfl⟩
    | .literal mark x isEscaped => simp
    | .numeric mark form code =>
      simp only [mayGive_charText, mayGive_ofExcept, escaped_eq_ok_iff]
    | .backReference _ code =>
      simp only [tell_bind, mayGive_note, mayGive_pure, Prod.mk.injEq]
      exact Iff.rfl
    | .control mark code =>
      simp only [← Alphabet.control?_eq_some_iff]
      cases Alphabet.control? code with
      | none => simp
      | some x =>
        simp only [mayGive_pure, Prod.mk.injEq, Option.some.injEq]
        exact ⟨fun h => ⟨x, h.1, rfl, h.2⟩, fun ⟨_, hs, rfl, hc⟩ => ⟨hs, hc⟩⟩
    | .token mark kind =>
      simp only [mayGive_bind, mayGive_tokenText, mayGive_pure, Prod.mk.injEq]
      exact ⟨fun ⟨_, hk, rfl, hc⟩ => ⟨hk, hc⟩, fun ⟨hk, hc⟩ => ⟨s, hk, rfl, hc⟩⟩
    | .unknown mark => simp

/-- Nodes in a row may give just the texts that the relation allows in a row. -/
theorem mayGive_evaluateAll (cfg : Config) (nodes : List Node) (path : Path) (place depth : Nat)
    (c : Captures Path) (s : String) (c' : Captures Path) :
    (Captures.memory.evaluateAll cfg nodes path place depth c).MayGive (s, c') ↔
      Node.YieldsAll cfg.room cfg nodes path place depth c s c' := by
  unfold Memory.evaluateAll Node.YieldsAll
  match nodes with
  | [] => simp
  | n :: ns =>
    simp only [Effect.andThen, mayGive_bind, Prod.exists, mayGive_pure, Prod.mk.injEq,
      mayGive_evaluate cfg n, mayGive_evaluateAll cfg ns]
    constructor
    · rintro ⟨s₁, c₁, h₁, s₂, c₂, h₂, rfl, rfl⟩
      exact ⟨s₁, c₁, s₂, h₁, h₂, rfl⟩
    · rintro ⟨s₁, c₁, s₂, h₁, h₂, rfl⟩
      exact ⟨s₁, c₁, h₁, s₂, c', h₂, rfl, rfl⟩

/-- The nodes at any places may give just the texts that the relation allows for some of them. -/
theorem mayGive_evaluateNth (cfg : Config) (nodes : List Node) (offset : UInt64) (path : Path)
    (place depth : Nat) (c : Captures Path) (s : String) (c' : Captures Path) :
    (∃ i < nodes.length,
        (Captures.memory.evaluateNth cfg offset nodes path place i depth c).MayGive (s, c')) ↔
      Node.YieldsSome cfg.room cfg nodes path place depth c s c' := by
  unfold Node.YieldsSome
  match nodes with
  | [] => simp
  | n :: ns =>
    dsimp only
    rw [← mayGive_evaluateNth cfg ns offset, ← mayGive_evaluate cfg n]
    constructor
    · rintro ⟨_ | i, hlt, h⟩
      · exact .inl h
      · exact .inr ⟨i, Nat.lt_of_succ_lt_succ hlt, h⟩
    · rintro (h | ⟨i, hlt, h⟩)
      · exact ⟨0, Nat.zero_lt_succ _, h⟩
      · exact ⟨i + 1, Nat.succ_lt_succ hlt, h⟩

/-- The pools that entries may leave have just the characters that survive all of them. -/
theorem mayGive_spare (cfg : Config) (entries : List Node) (path : Path) (place depth : Nat)
    (pool : List Char) (hpool : pool.length ≤ 0xFFFFFFFF) (x : Char) (c c' : Captures Path) :
    (∃ left, (Captures.memory.spare cfg entries path place depth pool c).MayGive (left, c') ∧
        x ∈ left ∧ left.length ≤ 0xFFFFFFFF) ↔
      x ∈ pool ∧ Node.Survives cfg.room cfg entries path place depth x c c' := by
  have hshorthand (text : String) : (withoutShorthand text pool).length ≤ 0xFFFFFFFF :=
    Nat.le_trans (length_withoutShorthand_le text pool) hpool
  unfold Memory.spare Node.Survives
  match entries with
  | [] =>
    simp only [mayGive_pure, Prod.mk.injEq]
    exact ⟨fun ⟨_, ⟨rfl, hc⟩, hx, _⟩ => ⟨hx, hc⟩, fun ⟨hx, hc⟩ => ⟨pool, ⟨rfl, hc⟩, hx, hpool⟩⟩
  | .literal _ a _ :: rest =>
    have hleft : (pool.filter (· ≠ a)).length ≤ 0xFFFFFFFF :=
      Nat.le_trans (List.length_filter_le _ _) hpool
    dsimp only
    rw [mayGive_spare cfg rest _ _ _ _ hleft, List.mem_filter, and_assoc, decide_eq_true_eq]
  | .range mark first last :: rest =>
    have hends := mayGive_ends (mayGive_evaluate cfg first (0 :: place :: path) depth)
      (mayGive_evaluate cfg last (1 :: place :: path) depth) mark.offset first.offset last.offset c
    have hrest (a b : Char) (c₁ : Captures Path) :=
      mayGive_spare cfg rest path (place + 1) depth
        (withoutShorthand mark.text (pool.filter fun x => ¬ (a ≤ x ∧ x ≤ b)))
        (Nat.le_trans (length_withoutShorthand_le _ _)
          (Nat.le_trans (List.length_filter_le _ _) hpool)) x c₁ c'
    -- A range is struck out together with the class that its text spells.
    simp only [mem_withoutShorthand, List.mem_filter, decide_eq_true_eq, and_assoc] at hrest
    simp only [mayGive_note]
    constructor
    · intro h
      obtain ⟨left, h, hx⟩ := h
      obtain ⟨⟨a, b, c₁⟩, hab, h⟩ := mayGive_bind.mp h
      obtain ⟨hpool, hout, hspelled, h⟩ := (hrest a b c₁).mp ⟨left, h, hx⟩
      exact ⟨hpool, a, b, c₁, (hends _ _ _).mp hab, hout, hspelled, h⟩
    · intro h
      obtain ⟨hpool, a, b, c₁, hab, hout, hspelled, h⟩ := h
      obtain ⟨left, h, hx⟩ := (hrest a b c₁).mpr ⟨hpool, hout, hspelled, h⟩
      exact ⟨left, mayGive_bind.mpr ⟨(a, b, c₁), (hends _ _ _).mpr hab, h⟩, hx⟩
  | .alternate .. :: rest | .sequence .. :: rest | .group .. :: rest | .quantified .. :: rest
  | .quantifier .. :: rest | .charset .. :: rest | .numeric .. :: rest | .backReference .. :: rest
  | .control .. :: rest | .token .. :: rest | .unknown .. :: rest =>
    dsimp only
    rw [mayGive_spare cfg rest _ _ _ _ (hshorthand _), mem_withoutShorthand, and_assoc]

end

end PatternSampler
