import PatternSampler.Proofs.Classes
import PatternSampler.Proofs.Samples

/-!
# What an inverted set leaves out

`Node.Matches` says which characters an entry of a set stands for in a regular expression.
`Node.Excludes` says which characters an entry of an inverted set strikes out when a sample is made:
a literal its character, a range the characters between its ends, and every entry but a literal the
class that its text spells. `yields_inverted` shows that a character that is struck out is never
given.

The two notions are not the same. A numeric escape strikes out nothing, because its text spells no
class, and the class of the characters that are no digits leaves the underscore in
(`generable_matched`). There are no other differences among printable characters
(`excludes_or_misses`), so an inverted set gives no character that one of its literals, its ranges,
its control characters or its other classes matches (`run_inverted`).
-/

namespace PatternSampler

namespace Numeral

/-- A text denotes one number at most. -/
theorem Denotes.unique {base : Nat} (hb : 0 < base) {text : String} {m n : Nat}
    (hm : Denotes base text m) (hn : Denotes base text n) : m = n := by
  -- Reading with a bound that is beyond both of them finds both.
  have hm' := (read_eq_ok_iff hb).mpr ⟨hm, Nat.le_max_left m n⟩
  have hn' := (read_eq_ok_iff hb).mpr ⟨hn, Nat.le_max_right m n⟩
  exact Except.ok.inj (hm'.symm.trans hn')

end Numeral

/-- The base of a numeric escape is a base. -/
theorem EscapeForm.base_pos (form : EscapeForm) : 0 < form.base := by
  cases form <;> decide

/-- Only the same character makes the same text. -/
theorem toString_inj {a b : Char} : a.toString = b.toString ↔ a = b := String.singleton_inj

namespace Node

/-- A node gives the same text whenever it gives one: a literal, an escape or a line feed. -/
def isFixed : Node → Bool
  | .literal .. | .numeric .. | .control .. | .token _ .lineFeed => true
  | _ => false

/-- A node gives one character, and always the same. -/
def Fixed : Node → Char → Prop
  | .literal mark x isEscaped, a => (if isEscaped then x.toString else mark.text) = a.toString
  | .numeric _ form code, a => Numeral.Denotes form.base code a.toNat
  | .control _ symbol, a => Alphabet.Controls symbol a
  | .token _ .lineFeed, a => a = '\n'
  | _, _ => False

/-- A node gives one character at most, if it always gives the same. -/
theorem Fixed.unique {n : Node} {a b : Char} (ha : n.Fixed a) (hb : n.Fixed b) : a = b := by
  unfold Fixed at ha hb
  split at ha
  · exact toString_inj.mp (ha.symm.trans hb)
  · next form code => exact Char.toNat_inj.mp (ha.unique form.base_pos hb)
  · have hcode : a.toNat + 0x40 = b.toNat + 0x40 := ha.2.trans hb.2.symm
    exact Char.toNat_inj.mp (Nat.add_right_cancel hcode)
  · exact ha.trans (Eq.symm hb)
  · exact ha.elim

/-- A fixed node that gives a character always gives that character, and captures nothing. -/
theorem fixed_of_yields {n : Node} (hn : n.isFixed) {room : Room} {cfg : Config} {path : Path}
    {depth : Nat} {c c' : Captures Path} {a : Char}
    (h : n.Yields room cfg path depth c a.toString c') : n.Fixed a ∧ c' = c := by
  unfold Yields at h
  obtain ⟨-, h⟩ := h
  unfold isFixed at hn
  split at hn
  · exact ⟨h.1.symm, h.2⟩
  · obtain ⟨x, hx, hdenotes, hc⟩ := h
    rw [← toString_inj.mp hx] at hdenotes
    exact ⟨hdenotes, hc⟩
  · obtain ⟨x, hx, hcontrols, hc⟩ := h
    rw [← toString_inj.mp hx] at hcontrols
    exact ⟨hcontrols, hc⟩
  · exact ⟨toString_inj.mp h.1, h.2⟩
  · cases hn

/-- The characters that an entry of a set stands for in a regular expression. -/
def Matches (entry : Node) (x : Char) : Prop :=
  match entry with
  | .literal _ a _ => x = a
  | .range _ first last => ∃ a b, first.Fixed a ∧ last.Fixed b ∧ a ≤ x ∧ x ≤ b
  | .numeric _ form code => Numeral.Denotes form.base code x.toNat
  | .control _ symbol => Alphabet.Controls symbol x
  | .token _ kind => ∃ shorthand, kind.shorthand? = some shorthand ∧ shorthand.Covers x
  | _ => False

/-- The characters that an entry of an inverted set strikes out, where the ends of ranges are
fixed. -/
def Excludes (entry : Node) (x : Char) : Prop :=
  match entry with
  | .literal _ a _ => x = a
  | .range mark first last =>
    (∃ a b, first.Fixed a ∧ last.Fixed b ∧ a ≤ x ∧ x ≤ b) ∨ Alphabet.Spelled mark.text x
  | entry => Alphabet.Spelled entry.text x

/-- The ends of a range are fixed. -/
def hasFixedEnds : Node → Bool
  | .range _ first last => first.isFixed && last.isFixed
  | _ => true

/-- An entry that a set in square brackets is written with: a literal, a range with fixed ends, an
escape, or a class in its usual spelling. -/
def isEntry : Node → Bool
  | .literal .. | .numeric .. | .control .. => true
  | .range _ first last => first.isFixed && last.isFixed
  | .token mark kind => kind.shorthand?.isSome && mark.text == tokenText kind
  | _ => false

/-- The ranges among the entries of a set have fixed ends. -/
theorem hasFixedEnds_of_isEntry {entry : Node} (h : entry.isEntry) : entry.hasFixedEnds := by
  cases entry with
  | range _ first last => exact h
  | _ => rfl

/-- A character that survives entries with fixed ends is struck out by none of them, and nothing is
captured on the way. -/
theorem not_excludes_of_survives {room : Room} {cfg : Config} {entries : List Node}
    (hentries : ∀ entry ∈ entries, entry.hasFixedEnds) {path : Path} {place depth : Nat} {x : Char}
    {c c' : Captures Path} (h : Survives room cfg entries path place depth x c c') :
    c' = c ∧ ∀ entry ∈ entries, ¬ entry.Excludes x := by
  induction entries generalizing place c with
  | nil => exact ⟨h, nofun⟩
  | cons entry rest ih =>
    have hrest := fun e he => hentries e (List.mem_cons_of_mem entry he)
    -- What is left to show of each entry is that it does not strike out the character itself.
    suffices hentry : ∃ c₁ place', Survives room cfg rest path place' depth x c₁ c' ∧ c₁ = c ∧
        ¬ entry.Excludes x by
      obtain ⟨c₁, place', hsurvives, rfl, hexcludes⟩ := hentry
      obtain ⟨hc, hothers⟩ := ih hrest hsurvives
      exact ⟨hc, List.forall_mem_cons.mpr ⟨hexcludes, hothers⟩⟩
    unfold Survives at h
    match entry with
    | .literal .. => exact ⟨c, _, h.2, rfl, h.1⟩
    | .range mark first last =>
      obtain ⟨a, b, c₁, ⟨c₂, ha, hb, -⟩, hout, hspelled, hsurvives⟩ := h
      have hends := hentries _ List.mem_cons_self
      simp only [hasFixedEnds, Bool.and_eq_true] at hends
      obtain ⟨hfirst, rfl⟩ := fixed_of_yields hends.1 ha
      obtain ⟨hlast, rfl⟩ := fixed_of_yields hends.2 hb
      refine ⟨_, _, hsurvives, rfl, ?_⟩
      rintro (⟨a', b', ha', hb', hin⟩ | h)
      · rw [ha'.unique hfirst, hb'.unique hlast] at hin
        exact hout hin
      · exact hspelled h
    | .alternate .. | .sequence .. | .group .. | .quantified .. | .quantifier .. | .charset ..
    | .numeric .. | .backReference .. | .control .. | .token .. | .unknown .. =>
      exact ⟨c, _, h.2, rfl, h.1⟩

/-- An inverted set whose ranges have fixed ends gives one printable character that none of its
entries strikes out, and captures nothing. -/
theorem yields_inverted {room : Room} {cfg : Config} {mark : Mark} {entries : List Node}
    (hentries : ∀ entry ∈ entries, entry.hasFixedEnds) {path : Path} {depth : Nat} {s : String}
    {c c' : Captures Path}
    (h : (charset mark entries true).Yields room cfg path depth c s c') :
    ∃ x : Char, s = x.toString ∧ c' = c ∧ x ∈ Alphabet.printable ∧
      ∀ entry ∈ entries, ¬ entry.Excludes x := by
  unfold Yields at h
  obtain ⟨-, x, hs, hx, hsurvives⟩ := h
  obtain ⟨hc, hexcludes⟩ := not_excludes_of_survives hentries hsurvives
  exact ⟨x, hs, hc, hx, hexcludes⟩

/-- An entry does not strike out a character that it matches: a numeric escape never does, and the
class of the characters that are no digits leaves the underscore in. -/
def Misses (entry : Node) (x : Char) : Prop :=
  match entry with
  | .numeric .. => True
  | .token _ .nonDigit => x = '_'
  | _ => False

/-- A printable character that an entry matches is struck out by it, unless it is one that the entry
misses. -/
theorem excludes_or_misses {entry : Node} (hentry : entry.isEntry) {x : Char}
    (hx : x ∈ Alphabet.printable) (h : entry.Matches x) : entry.Excludes x ∨ entry.Misses x := by
  match entry with
  | .literal .. => exact .inl h
  | .range .. => exact .inl (.inl h)
  | .numeric .. => exact .inr trivial
  | .control mark symbol =>
    -- Control characters come before all printable ones.
    obtain ⟨hsymbol, hcode⟩ := h
    have hprintable := (Alphabet.mem_printable.mp hx).1
    omega
  | .token mark kind =>
    obtain ⟨shorthand, hkind, hcovers⟩ := h
    simp only [isEntry, Bool.and_eq_true] at hentry
    have hspelled : Alphabet.Shorthand.ofText? mark.text = some shorthand := by
      rw [eq_of_beq hentry.2, ofText?_tokenText, hkind]
    by_cases hexception : shorthand = .nonDigit ∧ x = '_'
    · obtain ⟨rfl, rfl⟩ := hexception
      rw [shorthand?_eq_nonDigit.mp hkind]
      exact .inr rfl
    · refine .inl ⟨shorthand, hspelled, ?_⟩
      exact Alphabet.Shorthand.mem_members_of_covers hx hcovers fun hs hu => hexception ⟨hs, hu⟩

end Node

open Sampler

/-- What a source in bounds makes `emit` add to a page is a text that the node means. -/
theorem yields_of_run_emit {σ : Type} {src : Source σ} (hsrc : src.InBounds) {cfg : Config}
    {node : Node} {path : Path} {depth : Nat} {p q : Page} {s : σ}
    (h : ((emit cfg node path depth p).run src s).result = .ok q) :
    ∃ text c, q = p.extend (text, c) ∧ node.Yields cfg.room cfg path depth p.captures text c := by
  have hgive := mayGive_of_run hsrc h
  rw [emit_eq_evaluate, mayGive_map] at hgive
  obtain ⟨⟨text, c⟩, hgive, hq⟩ := hgive
  exact ⟨text, c, hq, (mayGive_evaluate cfg node path depth p.captures text c).mp hgive⟩

/-- What a source in bounds makes `sample` give is a text that the node means. -/
theorem yields_of_run_sample {σ : Type} {src : Source σ} (hsrc : src.InBounds) {cfg : Config}
    {node : Node} {s : σ} {text : String} (h : ((sample cfg node).run src s).result = .ok text) :
    ∃ c, node.Yields cfg.room cfg [] 0 { } text c := by
  have hgenerable : Generable cfg node text := ⟨σ, src, s, hsrc, h⟩
  obtain ⟨c, hgive⟩ := generable_iff_mayGive.mp hgenerable
  exact ⟨c, (mayGive_evaluate cfg node [] 0 { } text c).mp hgive⟩

/-- Wherever an inverted set stands, a run of it that does not fail adds one printable character,
and an entry that matches the character is one that misses it. The same holds of the samples of an
inverted set by itself. -/
theorem run_inverted {σ : Type} (src : Source σ) (hsrc : src.InBounds) (cfg : Config) (mark : Mark)
    (entries : List Node) (hentries : ∀ entry ∈ entries, entry.isEntry) (s : σ) :
    (∀ path depth p q,
        ((emit cfg (.charset mark entries true) path depth p).run src s).result = .ok q →
          ∃ x, q = p.push x ∧ x ∈ Alphabet.printable ∧
            ∀ entry ∈ entries, entry.Matches x → entry.Misses x) ∧
      ∀ text, ((sample cfg (.charset mark entries true)).run src s).result = .ok text →
        ∃ x : Char, text = x.toString ∧ x ∈ Alphabet.printable ∧
          ∀ entry ∈ entries, entry.Matches x → entry.Misses x := by
  have hends := fun entry he => Node.hasFixedEnds_of_isEntry (hentries entry he)
  have hmisses {x : Char} (hx : x ∈ Alphabet.printable)
      (hexcludes : ∀ entry ∈ entries, ¬ entry.Excludes x) :
      ∀ entry ∈ entries, entry.Matches x → entry.Misses x := by
    intro entry he hmatches
    have hcases := Node.excludes_or_misses (hentries entry he) hx hmatches
    exact hcases.resolve_left (hexcludes entry he)
  constructor
  · intro path depth p q h
    obtain ⟨text, c, rfl, hyields⟩ := yields_of_run_emit hsrc h
    obtain ⟨x, rfl, rfl, hx, hexcludes⟩ := Node.yields_inverted hends hyields
    exact ⟨x, (p.push_eq_extend x).symm, hx, hmisses hx hexcludes⟩
  · intro text h
    obtain ⟨c, hyields⟩ := yields_of_run_sample hsrc h
    obtain ⟨x, rfl, -, hx, hexcludes⟩ := Node.yields_inverted hends hyields
    exact ⟨x, rfl, hx, hmisses hx hexcludes⟩

/-- The set without the digits and the punctuation before them starts with the colon, which is
matched by none of its entries. -/
theorem run_inverted_colon :
    let entries := [Node.span ' ' '/', Node.spelled (.token { } .digit)]
    (∀ entry ∈ entries, entry.isEntry) ∧
      ((sample { } (.charset { } entries true)).run Source.lowest ()).result = .ok ":" ∧
      ∃ x : Char, ":" = x.toString ∧ x ∈ Alphabet.printable ∧
        ∀ entry ∈ entries, entry.Matches x → entry.Misses x := by
  intro entries
  have hentries : ∀ entry ∈ entries, entry.isEntry := by decide
  have hrun : ((sample { } (.charset { } entries true)).run Source.lowest ()).result = .ok ":" :=
    rfl
  have hinverted := run_inverted Source.lowest Source.lowest_inBounds { } { } entries hentries ()
  exact ⟨hentries, hrun, hinverted.2 _ hrun⟩

/-- Two sets that match every printable character between their entries, and still are not empty
when they are inverted: one has a numeric escape for a letter, the other the class of the characters
that are no digits. -/
theorem generable_matched :
    let letters := [Node.span ' ' '@', Node.span 'B' '~', .numeric { text := "\\x41" } .hex "41"]
    let classes := [Node.span '0' '9', Node.spelled (.token { } .nonDigit)]
    ((∀ entry ∈ letters, entry.isEntry) ∧ (∃ entry ∈ letters, entry.Matches 'A') ∧
        Generable { } (.charset { } letters true) "A") ∧
      (∀ entry ∈ classes, entry.isEntry) ∧ (∃ entry ∈ classes, entry.Matches '_') ∧
        Generable { } (.charset { } classes true) "_" := by
  intro letters classes
  have hletter : (Node.numeric { text := "\\x41" } .hex "41").Matches 'A' :=
    ⟨['4', '1'], [4, 1], .inl rfl, rfl, by decide, rfl⟩
  have hclass : (Node.spelled (.token { } .nonDigit)).Matches '_' :=
    ⟨.nonDigit, rfl, by simp only [Alphabet.Shorthand.Covers, Alphabet.IsDigit]; decide⟩
  refine ⟨⟨by decide, ⟨_, by simp [letters], hletter⟩, ?_⟩, by decide,
    ⟨_, by simp [classes], hclass⟩, ?_⟩
  · exact ⟨Unit, Source.lowest, (), Source.lowest_inBounds, rfl⟩
  · exact ⟨Unit, Source.lowest, (), Source.lowest_inBounds, rfl⟩

end PatternSampler
