import Mathlib.Computability.Language
import PatternSampler.Proofs.Exclusion

/-!
# The language of a pattern

`Node.language` is the language that a pattern stands for as a regular expression, in the ordinary
reading: alternatives are united, parts in a row are concatenated, a repeated part is raised to the
powers that its bounds admit, a set gives one of its members, and an inverted set one character that
is no member. There are no sources, pools or limits in it.

`Node.isRegular` tells the patterns that are sampled in this reading: those without assertions,
back-references and unknown parts, where a literal is written as itself, ranges have fixed ends, and
inverted sets list only what is struck out in full. Every sample of such a pattern is in its
language (`toList_mem_language`).
-/

namespace PatternSampler

/-- The words of one character with a property. -/
def oneChar (P : Char → Prop) : Language Char := {w | ∃ x, w = [x] ∧ P x}

/-- The words of one character with a property are those of a character with it. -/
theorem mem_oneChar {P : Char → Prop} {x : Char} : [x] ∈ oneChar P ↔ P x := by
  constructor
  · rintro ⟨y, h, hy⟩
    rwa [List.singleton_inj.mp h]
  · intro hx
    exact ⟨x, rfl, hx⟩

/-- The words that are put together from as many words of a language as is allowed. -/
def repetitions (allowed : Nat → Prop) (L : Language Char) : Language Char :=
  {w | ∃ n, allowed n ∧ w ∈ L ^ n}

/-- A character that ends a line. -/
def Alphabet.IsLineEnd (x : Char) : Prop :=
  x.toNat = 0x0A ∨ x.toNat = 0x0D ∨ x.toNat = 0x2028 ∨ x.toNat = 0x2029

/-- The language of a leaf without content that stands for characters. -/
def Token.language : Token → Language Char
  | .lineFeed => oneChar (· = '\n')
  | .anyCharacter => oneChar fun x => ¬ Alphabet.IsLineEnd x
  | kind => oneChar fun x => ∃ shorthand, kind.shorthand? = some shorthand ∧ shorthand.Covers x

namespace Node

/-- The counts that the bounds of a quantifier admit. A negative lower bound counts as zero. -/
def Admits : Node → Nat → Prop
  | .quantifier _ bounds _, n => bounds.min.toInt ≤ n ∧ ∀ most ∈ bounds.max, n ≤ most.toInt
  | _, _ => False

mutual

/-- The language of a pattern as a regular expression. Parts that stand for no words by themselves
have none. -/
def language : Node → Language Char
  | alternate _ l r => l.language + r.language
  | sequence _ body => languageInARow body
  | group _ .capturing body | group _ .plain body => body.language
  | quantified _ body q => repetitions q.Admits body.language
  | charset _ body true => oneChar fun x => [x] ∉ languageOfSome body
  | charset _ body false => languageOfSome body
  | range _ first last =>
    oneChar fun x => ∃ a b, [a] ∈ first.language ∧ [b] ∈ last.language ∧ a ≤ x ∧ x ≤ b
  | literal _ a _ => oneChar (· = a)
  | numeric _ form code => oneChar fun x => Numeral.Denotes form.base code x.toNat
  | control _ symbol => oneChar (Alphabet.Controls symbol)
  | token _ kind => kind.language
  | _ => 0

/-- The language of some patterns one after the other. -/
def languageInARow : List Node → Language Char
  | [] => 1
  | n :: ns => n.language * languageInARow ns

/-- The language of any of some patterns. -/
def languageOfSome : List Node → Language Char
  | [] => 0
  | n :: ns => n.language + languageOfSome ns

end

/-- An entry of an inverted set strikes out all printable characters that it matches. -/
def strikesAll : Node → Bool
  | .numeric .. | .token _ .nonDigit => false
  | _ => true

mutual

/-- A pattern is sampled as the regular expression that it is. -/
def isRegular : Node → Bool
  | alternate _ l r => l.isRegular && r.isRegular
  | sequence _ body => allRegular body
  | group _ .capturing body | group _ .plain body => body.isRegular
  | quantified _ body q => body.isRegular && q.tag == .quantifier
  | charset _ body invert =>
    allRegular body && (!invert || body.all fun entry => entry.isEntry && entry.strikesAll)
  | range _ first last =>
    first.isFixed && first.isRegular && last.isFixed && last.isRegular
  | literal mark a isEscaped => isEscaped || mark.text == a.toString
  | numeric .. | control .. => true
  | token _ kind => kind == .lineFeed || kind == .anyCharacter || kind.shorthand?.isSome
  | _ => false

/-- Some patterns are sampled as the regular expressions that they are. -/
def allRegular : List Node → Bool
  | [] => true
  | n :: ns => n.isRegular && allRegular ns

end

/-- The language of any of some patterns is made up of theirs. -/
theorem mem_languageOfSome {nodes : List Node} {w : List Char} :
    w ∈ languageOfSome nodes ↔ ∃ n ∈ nodes, w ∈ n.language := by
  induction nodes with
  | nil => simp [languageOfSome]
  | cons n ns ih => simp [languageOfSome, Language.mem_add, ih]

/-- All of some patterns are regular if each of them is. -/
theorem isRegular_of_mem {nodes : List Node} (h : allRegular nodes) {n : Node} (hn : n ∈ nodes) :
    n.isRegular := by
  induction nodes with
  | nil => cases hn
  | cons first rest ih =>
    simp only [allRegular, Bool.and_eq_true] at h
    rcases List.mem_cons.mp hn with rfl | hn
    · exact h.1
    · exact ih h.2 hn

/-- A fixed node has the one word in its language that it always gives. -/
theorem mem_language_fixed {n : Node} (hfixed : n.isFixed) (hregular : n.isRegular) {a : Char} :
    [a] ∈ n.language ↔ n.Fixed a := by
  unfold isFixed at hfixed
  split at hfixed
  · next mark x isEscaped =>
    simp only [isRegular, Bool.or_eq_true] at hregular
    have hself : (if isEscaped then x.toString else mark.text) = x.toString := by
      split
      · rfl
      · next h => exact eq_of_beq (hregular.resolve_left h)
    simp only [language, mem_oneChar, Fixed, hself, toString_inj]
    exact eq_comm
  · simp only [language, mem_oneChar, Fixed]
  · simp only [language, mem_oneChar, Fixed]
  · simp only [language, Token.language, mem_oneChar, Fixed]
  · cases hfixed

/-- A class of characters has them as its language. -/
theorem mem_language_shorthand {kind : Token} {shorthand : Alphabet.Shorthand}
    (h : kind.shorthand? = some shorthand) {x : Char} :
    [x] ∈ kind.language ↔ shorthand.Covers x := by
  have hlanguage : kind.language =
      oneChar fun x => ∃ shorthand, kind.shorthand? = some shorthand ∧ shorthand.Covers x := by
    cases kind with
    | lineFeed | anyCharacter => cases h
    | _ => rfl
  rw [hlanguage, mem_oneChar, h]
  simp

/-- An entry of a set matches the characters of its language. -/
theorem matches_of_mem_language {entry : Node} (hentry : entry.isEntry)
    (hregular : entry.isRegular) {x : Char} (h : [x] ∈ entry.language) : entry.Matches x := by
  match entry with
  | .literal .. => exact mem_oneChar.mp h
  | .numeric .. => exact mem_oneChar.mp h
  | .control .. => exact mem_oneChar.mp h
  | .range _ first last =>
    simp only [isRegular, Bool.and_eq_true] at hregular
    obtain ⟨⟨⟨hfirst, hfirst'⟩, hlast⟩, hlast'⟩ := hregular
    obtain ⟨a, b, ha, hb, hx⟩ := mem_oneChar.mp h
    have ha' := (mem_language_fixed hfirst hfirst').mp ha
    have hb' := (mem_language_fixed hlast hlast').mp hb
    exact ⟨a, b, ha', hb', hx⟩
  | .token _ kind =>
    simp only [isEntry, Bool.and_eq_true] at hentry
    obtain ⟨shorthand, hkind⟩ := Option.isSome_iff_exists.mp hentry.1
    exact ⟨shorthand, hkind, (mem_language_shorthand hkind).mp h⟩

/-- The counts that may be given for a quantifier are among those that its bounds admit. -/
theorem Counts.admits {cfg : Config} {q : Node} {n : Nat} (h : q.Counts cfg n) : q.Admits n := by
  cases q with
  | quantifier mark bounds greedy =>
    simp only [Counts] at h
    cases hmax : bounds.max with
    | some most =>
      rw [hmax] at h
      refine ⟨Int.le_trans (Int.le_max_left _ _) h.1, fun m hm => ?_⟩
      rw [hmax, Option.mem_some_iff] at hm
      exact hm ▸ h.2.1
    | none =>
      rw [hmax] at h
      obtain ⟨extra, -, -, hleast, -⟩ := h
      refine ⟨Int.le_trans (Int.le_max_left _ _) hleast, fun m hm => ?_⟩
      rw [hmax] at hm
      cases hm
  | _ => exact h.elim

end Node

/-- A text of one character is a word of one character. -/
theorem toList_toString (x : Char) : x.toString.toList = [x] := by
  rw [Char.toString, String.toList_singleton]

/-- A leaf without content gives words of its language, if it stands for characters. -/
theorem Token.mem_language_of_yields {mark : Mark} {kind : Token}
    (hkind : (Node.token mark kind).isRegular) {s : String} (h : kind.Yields s) :
    s.toList ∈ kind.language := by
  -- What is drawn from a pool is in a class if all of the pool is.
  have hpool (shorthand : Alphabet.Shorthand) {pool : List Char}
      (hclass : kind.shorthand? = some shorthand) (hcovers : ∀ x ∈ pool, shorthand.Covers x)
      (h : Alphabet.OneOf pool s) : s.toList ∈ kind.language := by
    obtain ⟨x, rfl, hx⟩ := h
    rw [toList_toString]
    exact (Node.mem_language_shorthand hclass).mpr (hcovers x hx)
  cases kind with
  | lineFeed =>
    rw [show s = "\n" from h]
    exact ⟨'\n', rfl, rfl⟩
  | anyCharacter =>
    obtain ⟨x, rfl, hlow, hhigh⟩ := h
    rw [toList_toString]
    refine mem_oneChar.mpr fun hend => ?_
    simp only [Alphabet.IsLineEnd] at hend
    omega
  | digit => exact hpool .digit rfl (fun _ => Alphabet.Shorthand.covers_of_mem_members) h
  | nonDigit => exact hpool .nonDigit rfl (fun _ => Alphabet.Shorthand.covers_of_mem_members) h
  | whiteSpace => exact hpool .space rfl (fun _ => Alphabet.Shorthand.covers_of_mem_members) h
  | nonWord => exact hpool .nonWord rfl (fun _ => Alphabet.Shorthand.covers_of_mem_members) h
  | word => exact hpool .word rfl (fun _ hx => (Alphabet.mem_alnum.mp hx).1) h
  | nonWhiteSpace =>
    -- The pool is that of letters and digits, none of which is a blank.
    refine hpool .nonSpace rfl (fun x hx hblank => ?_) h
    have hword := (Alphabet.mem_alnum.mp hx).1
    simp only [Alphabet.IsWord, Alphabet.IsDigit, Alphabet.IsBlank] at hword hblank
    omega
  | _ => cases hkind

/-- Words of a language a number of times in a row make a word of its power. -/
theorem Effect.toList_mem_pow {e : Effect} {L : Language Char}
    (he : ∀ c s c', e c s c' → s.toList ∈ L) {n : Nat} {c c' : Captures Path} {s : String}
    (h : e.times n c s c') : s.toList ∈ L ^ n := by
  induction n generalizing c s with
  | zero =>
    rw [h.1, pow_zero]
    rfl
  | succ n ih =>
    obtain ⟨s₁, c₁, s₂, h₁, h₂, rfl⟩ := h
    rw [pow_succ', String.toList_append]
    exact Language.append_mem_mul (he _ _ _ h₁) (ih h₂)

namespace Node

variable {room : Room} {cfg : Config}

/-- A character that survives the entries of an inverted set is no word of any of them, if they
strike out all that they match. -/
theorem not_mem_languageOfSome {entries : List Node} (hregular : allRegular entries)
    (hentries : ∀ entry ∈ entries, entry.isEntry ∧ entry.strikesAll) {x : Char}
    (hx : x ∈ Alphabet.printable) (hexcludes : ∀ entry ∈ entries, ¬ entry.Excludes x) :
    [x] ∉ languageOfSome entries := by
  intro hmem
  obtain ⟨entry, he, hword⟩ := mem_languageOfSome.mp hmem
  obtain ⟨hentry, hstrikes⟩ := hentries entry he
  have hmatches := matches_of_mem_language hentry (isRegular_of_mem hregular he) hword
  rcases excludes_or_misses hentry hx hmatches with h | hmisses
  · exact hexcludes entry he h
  · -- The entries that miss a character are those that the set may not have.
    unfold Misses at hmisses
    split at hmisses
    · cases hstrikes
    · cases hstrikes
    · exact hmisses

mutual

/-- What a regular pattern yields is a word of its language. -/
theorem toList_mem_language_of_yields (node : Node) (hnode : node.isRegular) {path : Path}
    {depth : Nat} {c c' : Captures Path} {s : String}
    (h : node.Yields room cfg path depth c s c') : s.toList ∈ node.language := by
  unfold Yields at h
  obtain ⟨-, h⟩ := h
  unfold language
  match node with
  | .alternate _ l r =>
    simp only [isRegular, Bool.and_eq_true] at hnode
    rcases h with h | h
    · exact .inl (toList_mem_language_of_yields l hnode.1 h)
    · exact .inr (toList_mem_language_of_yields r hnode.2 h)
  | .sequence _ body => exact toList_mem_languageInARow body hnode h
  | .group _ .capturing body =>
    obtain ⟨c₁, h, -⟩ := h
    exact toList_mem_language_of_yields body hnode h
  | .group _ .plain body => exact toList_mem_language_of_yields body hnode h
  | .quantified _ body q =>
    simp only [isRegular, Bool.and_eq_true] at hnode
    obtain ⟨n, hcounts, h⟩ := h
    refine ⟨n, hcounts.admits, Effect.toList_mem_pow (fun _ _ _ h => ?_) h⟩
    exact toList_mem_language_of_yields body hnode.1 h
  | .charset _ body true =>
    simp only [isRegular, Bool.and_eq_true, Bool.not_true, Bool.false_or, List.all_eq_true] at hnode
    obtain ⟨x, rfl, hx, hsurvives⟩ := h
    have hends := fun entry he => hasFixedEnds_of_isEntry (hnode.2 entry he).1
    have hexcludes := (not_excludes_of_survives hends hsurvives).2
    rw [toList_toString]
    exact mem_oneChar.mpr (not_mem_languageOfSome hnode.1 hnode.2 hx hexcludes)
  | .charset _ body false =>
    simp only [isRegular, Bool.and_eq_true] at hnode
    exact toList_mem_languageOfSome body hnode.1 h.2
  | .range _ first last =>
    simp only [isRegular, Bool.and_eq_true] at hnode
    obtain ⟨⟨⟨-, hfirst⟩, -⟩, hlast⟩ := hnode
    obtain ⟨a, b, x, rfl, hax, hxb, c₁, ha, hb, -⟩ := h
    have ha := toList_mem_language_of_yields first hfirst ha
    have hb := toList_mem_language_of_yields last hlast hb
    rw [toList_toString] at ha hb ⊢
    exact mem_oneChar.mpr ⟨a, b, ha, hb, hax, hxb⟩
  | .literal mark a isEscaped =>
    simp only [isRegular, Bool.or_eq_true] at hnode
    have hself : s = a.toString := by
      rw [h.1]
      split
      · rfl
      · next hraw => exact eq_of_beq (hnode.resolve_left hraw)
    rw [hself, toList_toString]
    exact mem_oneChar.mpr rfl
  | .numeric .. =>
    obtain ⟨x, rfl, hdenotes, -⟩ := h
    rw [toList_toString]
    exact mem_oneChar.mpr hdenotes
  | .control .. =>
    obtain ⟨x, rfl, hcontrols, -⟩ := h
    rw [toList_toString]
    exact mem_oneChar.mpr hcontrols
  | .token _ kind => exact Token.mem_language_of_yields hnode h.1

/-- What regular patterns in a row yield is a word of their languages in a row. -/
theorem toList_mem_languageInARow (nodes : List Node) (hnodes : allRegular nodes) {path : Path}
    {place depth : Nat} {c c' : Captures Path} {s : String}
    (h : YieldsAll room cfg nodes path place depth c s c') : s.toList ∈ languageInARow nodes := by
  unfold YieldsAll at h
  unfold languageInARow
  match nodes with
  | [] =>
    rw [h.1]
    rfl
  | n :: ns =>
    simp only [allRegular, Bool.and_eq_true] at hnodes
    obtain ⟨s₁, c₁, s₂, h₁, h₂, rfl⟩ := h
    rw [String.toList_append]
    exact Language.append_mem_mul (toList_mem_language_of_yields n hnodes.1 h₁)
      (toList_mem_languageInARow ns hnodes.2 h₂)

/-- What any of some regular patterns yields is a word of the language of some of them. -/
theorem toList_mem_languageOfSome (nodes : List Node) (hnodes : allRegular nodes) {path : Path}
    {place depth : Nat} {c c' : Captures Path} {s : String}
    (h : YieldsSome room cfg nodes path place depth c s c') : s.toList ∈ languageOfSome nodes := by
  unfold YieldsSome at h
  unfold languageOfSome
  match nodes with
  | [] => exact h.elim
  | n :: ns =>
    simp only [allRegular, Bool.and_eq_true] at hnodes
    rcases h with h | h
    · exact .inl (toList_mem_language_of_yields n hnodes.1 h)
    · exact .inr (toList_mem_languageOfSome ns hnodes.2 h)

end

end Node

/-- Every sample of a regular pattern is a word of its language. -/
theorem toList_mem_language {σ : Type} (src : Source σ) (hsrc : src.InBounds) (cfg : Config)
    (node : Node) (hnode : node.isRegular) (s : σ) {text : String}
    (h : ((sample cfg node).run src s).result = .ok text) : text.toList ∈ node.language := by
  obtain ⟨c, hyields⟩ := yields_of_run_sample hsrc h
  exact node.toList_mem_language_of_yields hnode hyields

/-- Two or more hexadecimal digits, and then a character that neither stands in a word nor comes
before the digits. -/
def Node.digitsAndSign : Node :=
  ofSequence
    [repeated (oneOf [spelled (.token { } .digit), span 'a' 'f'] false) (times 2 none),
      oneOf [span ' ' '/', spelled (.token { } .word)] true]

/-- The least sample of it is two zeros and a colon. -/
theorem toList_mem_language_digitsAndSign :
    Node.digitsAndSign.isRegular ∧
      ((sample { } .digitsAndSign).run Source.lowest ()).result = .ok "00:" ∧
      "00:".toList ∈ Node.digitsAndSign.language := by
  have hregular : Node.digitsAndSign.isRegular := by decide
  have hrun : ((sample { } .digitsAndSign).run Source.lowest ()).result = .ok "00:" := rfl
  have hmem := toList_mem_language Source.lowest Source.lowest_inBounds { } .digitsAndSign hregular
    () hrun
  exact ⟨hregular, hrun, hmem⟩

end PatternSampler
