import PatternSampler.Proofs.Numerals
import PatternSampler.Proofs.Progress

/-!
# Runs that fail

A run gives a value or fails with an error. `Sampler.Gives` and `Sampler.Fails` say so without the
steps of the run, and there is one lemma for each way to put samplers together and for each kind of
choice that says when it fails. A row of nodes, of rounds or of entries fails when one of them does,
after those before it (`fails_emitAll`, `Sampler.fails_iterate`, `fails_strike`).
-/

namespace PatternSampler

/-- A numeric escape has no character if its code denotes no number of thirty-two bits, or one that
is no character's. -/
theorem escaped_eq_error {offset : UInt64} {form : EscapeForm} {code : String} {e : SampleError} :
    escaped offset form code = .error e ↔
      (∀ n, Numeral.Denotes form.base code n → 0xFFFFFFFF < n) ∧
          e = .invalidCode offset code form.base ∨
        ∃ n, Numeral.Denotes form.base code n ∧ n ≤ 0xFFFFFFFF ∧ ¬n.isValidChar ∧
          e = .invalidCodePoint offset (UInt32.ofNat n) := by
  have hread {n : Nat} : Numeral.read form.base Numeral.max32 code = .ok n ↔
      Numeral.Denotes form.base code n ∧ n ≤ Numeral.max32 :=
    Numeral.read_eq_ok_iff form.base_pos
  constructor
  · intro h
    unfold escaped at h
    split at h
    · next n hn =>
      obtain ⟨hdenotes, hle⟩ := hread.mp hn
      unfold scalar at h
      split at h
      · cases h
      · next hvalid =>
        cases h
        rw [UInt32.isValidChar, toNat_ofNat_word hle] at hvalid
        exact .inr ⟨n, hdenotes, hle, hvalid, rfl⟩
    · next hfault =>
      cases h
      refine .inl ⟨fun n hn => Nat.lt_of_not_le fun hle => ?_, rfl⟩
      have hok := hread.mpr ⟨hn, hle⟩
      exact nomatch hfault.symm.trans hok
  · rintro (⟨hcode, rfl⟩ | ⟨n, hdenotes, hle, hvalid, rfl⟩)
    · unfold escaped
      split
      · next n hn =>
        obtain ⟨hdenotes, hle⟩ := hread.mp hn
        exact absurd (hcode n hdenotes) (Nat.not_lt.mpr hle)
      · rfl
    · have hscalar : ¬(UInt32.ofNat n).isValidChar := by
        rwa [UInt32.isValidChar, toNat_ofNat_word hle]
      rw [escaped, hread.mpr ⟨hdenotes, hle⟩]
      dsimp only
      rw [scalar, dif_neg hscalar]

/-- A symbol stands for no control character if it is none of those from the at sign to the
underscore. -/
theorem Alphabet.control?_eq_none_iff {symbol : Char} :
    Alphabet.control? symbol = none ↔ symbol < '@' ∨ '_' < symbol := by
  constructor
  · intro h
    refine Decidable.byContradiction fun hbetween => ?_
    rw [not_or, Char.not_lt, Char.not_lt] at hbetween
    obtain ⟨x, hx⟩ := Alphabet.exists_controls hbetween
    exact nomatch h.symm.trans (Alphabet.control?_eq_some_iff.mpr hx)
  · intro h
    refine Option.eq_none_iff_forall_ne_some.mpr fun x hx => ?_
    obtain ⟨hmost, heq⟩ := Alphabet.control?_eq_some_iff.mp hx
    have hat : '@'.toNat = 0x40 := rfl
    have hunderscore : '_'.toNat = 0x5F := rfl
    rcases h with h | h
    · have hlt : symbol.toNat < '@'.toNat := h
      omega
    · have hlt : '_'.toNat < symbol.toNat := h
      omega

namespace Sampler

variable {α β σ : Type} (src : Source σ)

/-- A run from a state gives a value and leaves the source in another state. -/
def Gives (p : Sampler α) (s : σ) (a : α) (s' : σ) : Prop :=
  (p.run src s).result = .ok a ∧ (p.run src s).state = s'

/-- A run from a state ends with an error. -/
def Fails (p : Sampler α) (s : σ) (e : SampleError) : Prop :=
  (p.run src s).result = .error e

variable {src} {p : Sampler α} {f : α → Sampler β} {s s' s'' : σ} {a a' : α} {b : β}
  {e : SampleError}

/-- A value is given as it is. -/
theorem gives_pure : (pure a : Sampler α).Gives src s a' s' ↔ a = a' ∧ s = s' := by
  unfold Gives
  rw [run_pure, Except.ok.injEq]

/-- A value does not fail. -/
theorem not_fails_pure : ¬(pure a : Sampler α).Fails src s e := nofun

/-- A failure ends with its own error. -/
theorem fails_fail {e' : SampleError} : (fail e' : Sampler α).Fails src s e ↔ e' = e :=
  ⟨Except.error.inj, congrArg Except.error⟩

/-- Two samplers in a row give what the second gives after the first. -/
theorem gives_bind :
    (p >>= f).Gives src s b s'' ↔ ∃ a s', p.Gives src s a s' ∧ (f a).Gives src s' b s'' := by
  unfold Gives
  rw [run_bind, Outcome.andThen]
  constructor
  · intro h
    split at h
    · next a ha => exact ⟨a, _, ⟨ha, rfl⟩, h⟩
    · next he => cases h.1
  · rintro ⟨a, s', ⟨ha, hs⟩, hf⟩
    rw [ha, hs]
    exact hf

/-- An event does not change what is given. -/
theorem gives_note {ev : Event} {next : Unit → Sampler α} :
    (note ev next).Gives src s a s' ↔ (next ()).Gives src s a s' := by
  unfold Gives
  rw [run_note]

/-- An event does not fail. -/
theorem fails_note {ev : Event} {next : Unit → Sampler α} :
    (note ev next).Fails src s e ↔ (next ()).Fails src s e := by
  rw [Fails, run_note]
  exact Iff.rfl

/-- Of two samplers in a row the first fails, or else the second does after it. -/
theorem fails_bind :
    (p >>= f).Fails src s e ↔
      p.Fails src s e ∨ ∃ a s', p.Gives src s a s' ∧ (f a).Fails src s' e := by
  rw [Fails, Fails, run_bind, Outcome.andThen]
  cases h : (p.run src s).result with
  | error e' =>
    dsimp only
    constructor
    · intro he
      exact .inl (congrArg Except.error (Except.error.inj he))
    · rintro (he | ⟨a, s', ⟨ha, -⟩, -⟩)
      · exact congrArg Except.error (Except.error.inj he)
      · rw [h] at ha
        cases ha
  | ok a =>
    constructor
    · intro he
      exact .inr ⟨a, (p.run src s).state, ⟨h, rfl⟩, he⟩
    · rintro (he | ⟨a', s', ⟨ha, rfl⟩, he⟩)
      · cases he
      · rw [h] at ha
        cases ha
        exact he

/-- Of a number of rounds one fails, after those before it. -/
theorem fails_iterate {step : α → Sampler α} {n : Nat} :
    (iterate step n a).Fails src s e ↔
      ∃ k < n, ∃ a' s', (iterate step k a).Gives src s a' s' ∧ (step a').Fails src s' e := by
  induction n generalizing a s with
  | zero => exact ⟨fun h => absurd h not_fails_pure, nofun⟩
  | succ n ih =>
    refine fails_bind.trans ⟨fun h => ?_, fun h => ?_⟩
    · rcases h with h | ⟨a₁, s₁, hstep, h⟩
      · exact ⟨0, Nat.zero_lt_succ n, a, s, gives_pure.mpr ⟨rfl, rfl⟩, h⟩
      · obtain ⟨k, hk, a', s', hrounds, hfails⟩ := ih.mp h
        exact ⟨k + 1, Nat.succ_lt_succ hk, a', s', gives_bind.mpr ⟨a₁, s₁, hstep, hrounds⟩, hfails⟩
    · obtain ⟨k, hk, a', s', hrounds, hfails⟩ := h
      cases k with
      | zero =>
        obtain ⟨rfl, rfl⟩ := gives_pure.mp hrounds
        exact .inl hfails
      | succ k =>
        obtain ⟨a₁, s₁, hstep, hrounds⟩ := gives_bind.mp hrounds
        exact .inr ⟨a₁, s₁, hstep, ih.mpr ⟨k, Nat.lt_of_succ_lt_succ hk, a', s', hrounds, hfails⟩⟩

/-- What is guaranteed of values holds of the one that is given. -/
theorem Guarantees.of_gives {p : Sampler α} {Q : α → Prop} {E : SampleError → Prop}
    (hp : p.Guarantees Q E) (hsrc : src.KeepsIntegers) {a : α} (h : p.Gives src s a s') : Q a := by
  rcases hp.run hsrc s with ⟨a', ha', hQ⟩ | ⟨e, he, -⟩
  · have heq : Except.ok a = .ok a' := h.1.symm.trans ha'
    cases heq
    exact hQ
  · exact nomatch h.1.symm.trans he

/-- What is guaranteed not to fail does not. -/
theorem Guarantees.not_fails {p : Sampler α} {Q : α → Prop}
    (hp : p.Guarantees Q fun _ => False) (hsrc : src.KeepsIntegers) : ¬p.Fails src s e := by
  intro h
  rcases hp.run hsrc s with ⟨a, ha, -⟩ | ⟨_, -, hfalse⟩
  · exact nomatch ha.symm.trans h
  · exact hfalse

/-- A choice by itself does not fail. -/
theorem not_fails_ask {q : Query} : ¬(ask q done).Fails src s e := by
  rw [Fails, run_ask]
  nofun

/-- A computation that asks for nothing fails with its error. -/
theorem fails_ofExcept {x : Except SampleError α} : (ofExcept x).Fails src s e ↔ x = .error e := by
  cases x with
  | ok a => exact ⟨nofun, nofun⟩
  | error e' => exact ⟨id, id⟩

/-- A choice of an index does not fail, though it may give none. -/
theorem not_fails_index {n : Nat} : ¬(index n).Fails src s e := by
  unfold index
  split
  · intro h
    rcases fails_bind.mp h with h | ⟨_, _, -, h⟩
    · exact not_fails_ask h
    · exact not_fails_pure h
  · exact not_fails_pure

/-- A choice from a pool that is not too large fails if the pool is empty. -/
theorem fails_pickChar {offset : UInt64} {pool : List Char} (hsrc : src.KeepsIntegers)
    (hpool : pool.length ≤ 0xFFFFFFFF) :
    (pickChar offset pool).Fails src s e ↔ pool = [] ∧ e = .exhaustedPool offset := by
  cases pool with
  | nil => exact fails_fail.trans (eq_comm.trans (and_iff_right rfl).symm)
  | cons c cs =>
    refine iff_of_false ?_ nofun
    exact (guarantees_pickChar (List.cons_ne_nil c cs) hpool).not_fails hsrc

/-- A choice of a count fails if the bounds are out of order or the upper one is too large. -/
theorem fails_countWithin {offset : UInt64} {least most : Int} (hsrc : src.KeepsIntegers) :
    (countWithin offset least most).Fails src s e ↔
      (most < least ∨ maxCount < most) ∧ e = .invalidBounds offset least most := by
  by_cases hbounds : least ≤ most ∧ most ≤ maxCount
  · refine iff_of_false ?_ (by omega)
    exact (guarantees_countWithin hbounds.1 hbounds.2).not_fails hsrc
  · rw [countWithin, if_neg hbounds, fails_fail, eq_comm]
    exact (and_iff_right (by omega)).symm

/-- A choice of a code point in a range that is in order does not fail, and neither does making it a
character. -/
theorem not_fails_between {a b : Char} (hsrc : src.KeepsIntegers) (hle : a ≤ b) (offset : UInt64)
    (f : Char → α) :
    ¬(between a b >>= fun v => ofExcept (scalar offset v) >>= fun c => pure (f c)).Fails
      src s e := by
  have hguarantees : (between a b >>= fun v => ofExcept (scalar offset v) >>= fun c =>
      pure (f c)).Guarantees (fun _ => True) fun _ => False := by
    refine (guarantees_between hle).bind fun v hv => ?_
    rw [scalar, dif_pos hv]
    trivial
  exact hguarantees.not_fails hsrc

/-- A leaf without content does not fail. -/
theorem not_fails_token {offset : UInt64} {kind : Token} {p : Page} (hsrc : src.KeepsIntegers) :
    ¬(token offset kind p).Fails src s e := by
  rw [token_eq_extend, ← bind_pure_comp]
  have htext : (tokenText offset kind >>= (pure ∘ fun t => p.extend (t, p.captures))).Guarantees
      (fun _ => True) fun _ => False :=
    (guarantees_tokenText offset kind).bind fun _ _ => trivial
  exact htext.not_fails hsrc

/-- A group can be entered. -/
theorem not_fails_enter {path : Path} {offset : UInt64} {captures : Captures Path} :
    ¬(enter path offset captures).Fails src s e := by
  unfold enter
  split
  · rw [tell_bind, fails_note]
    exact not_fails_pure
  · rw [tell_bind, fails_note]
    exact not_fails_pure

/-- An end of a range fails if writing it does, or if it does not write one character. -/
theorem fails_endpoint {offset : UInt64} {write : Page → Sampler Page} {captures : Captures Path} :
    (endpoint offset write captures).Fails src s e ↔
      (write { captures }).Fails src s e ∨
        ∃ q s', (write { captures }).Gives src s q s' ∧ q.text.length ≠ 1 ∧
          e = .invalidRangeEndpoint offset q.text := by
  refine fails_bind.trans (or_congr_right (exists₂_congr fun q s' => and_congr_right fun _ => ?_))
  rw [Page.text, String.length_ofList]
  split
  · next c hc => exact iff_of_false not_fails_pure fun h => h.1 (by rw [hc]; rfl)
  · next hone =>
    have hlength : q.written.toList.length ≠ 1 := fun h => by
      obtain ⟨c, hc⟩ := List.length_eq_one_iff.mp h
      exact hone c hc
    rw [fails_fail, eq_comm]
    exact (and_iff_right hlength).symm

/-- The ends of a range that are given are in order. -/
theorem le_of_gives_ends {μ : Type} {offset : UInt64} {first last : μ → Sampler (Char × μ)}
    {m m' : μ} {a b : Char} (h : (ends offset first last m).Gives src s (a, b, m') s') : a ≤ b := by
  obtain ⟨⟨a, m₁⟩, s₁, -, h⟩ := gives_bind.mp h
  obtain ⟨⟨b, m₂⟩, s₂, -, h⟩ := gives_bind.mp h
  dsimp only at h
  split at h
  · exact nomatch h.1
  · next hle =>
    cases h.1
    exact Char.not_lt.mp hle

end Sampler

section Walks

variable {σ : Type} {src : Source σ} {cfg : Config} {s s' : σ} {e : SampleError} {path : Path}
  {place depth : Nat} {p q : Page}

open Sampler

/-- There is none of no nodes. -/
theorem not_exists_split_nil {P : List Node → Node → Prop} :
    ¬∃ before n after, [] = before ++ n :: after ∧ P before n := by
  rintro ⟨before, n, after, h, -⟩
  exact List.append_ne_nil_of_right_ne_nil before (List.cons_ne_nil n after) h.symm

/-- One of some nodes in a row is the first of them, or one of those after it. -/
theorem exists_split_cons {first : Node} {rest : List Node} {P : List Node → Node → Prop} :
    (∃ before n after, first :: rest = before ++ n :: after ∧ P before n) ↔
      P [] first ∨ ∃ before n after, rest = before ++ n :: after ∧ P (first :: before) n := by
  constructor
  · rintro ⟨before, n, after, h, hP⟩
    cases before with
    | nil =>
      cases h
      exact .inl hP
    | cons first' before =>
      cases h
      exact .inr ⟨before, n, after, rfl, hP⟩
  · rintro (hP | ⟨before, n, after, rfl, hP⟩)
    · exact ⟨[], first, rest, rfl, hP⟩
    · exact ⟨first :: before, n, after, rfl, hP⟩

/-- Of some nodes in a row one fails, after those before it. -/
theorem fails_emitAll {nodes : List Node} :
    (emitAll cfg nodes path place depth p).Fails src s e ↔
      ∃ before n after, nodes = before ++ n :: after ∧ ∃ q s',
        (emitAll cfg before path place depth p).Gives src s q s' ∧
        (emit cfg n ((place + before.length) :: path) depth q).Fails src s' e := by
  induction nodes generalizing place p s with
  | nil => exact iff_of_false not_fails_pure not_exists_split_nil
  | cons first rest ih =>
    have hplace (before : List Node) : place + 1 + before.length = place + (before.length + 1) := by
      omega
    rw [exists_split_cons]
    refine fails_bind.trans (or_congr ?_ ?_)
    · simp only [emitAll, gives_pure, List.length_nil, Nat.add_zero]
      refine ⟨fun h => ⟨p, s, ⟨rfl, rfl⟩, h⟩, ?_⟩
      rintro ⟨_, _, ⟨rfl, rfl⟩, h⟩
      exact h
    simp only [List.length_cons, ← hplace, emitAll, gives_bind]
    constructor
    · rintro ⟨q, s₁, hfirst, h⟩
      obtain ⟨before, n, after, hrest, q', s', hgives, hfails⟩ := ih.mp h
      exact ⟨before, n, after, hrest, q', s', ⟨q, s₁, hfirst, hgives⟩, hfails⟩
    · rintro ⟨before, n, after, hrest, q', s', ⟨q, s₁, hfirst, hgives⟩, hfails⟩
      exact ⟨q, s₁, hfirst, ih.mpr ⟨before, n, after, hrest, q', s', hgives, hfails⟩⟩

/-- The member of a set that is asked for is evaluated. -/
theorem emitNth_eq {offset : UInt64} {nodes : List Node} {i : Nat} {n : Node}
    (h : nodes[i]? = some n) :
    emitNth cfg offset nodes path place i depth p = emit cfg n ((place + i) :: path) depth p := by
  induction nodes generalizing place i with
  | nil => cases h
  | cons first rest ih =>
    cases i with
    | zero =>
      cases h
      rfl
    | succ i =>
      have hrest := @ih (place + 1) i h
      rwa [Nat.add_assoc, Nat.add_comm 1 i] at hrest

/-- An entry is a range, or it leaves a pool that is no longer to the entries after it. -/
theorem range_or_strike_cons (cfg : Config) (entry : Node) (path : Path) (place depth : Nat) :
    (∃ m first last, entry = .range m first last) ∨
      entry.tag ≠ .range ∧ ∀ (pool : List Char) (captures : Captures Path), ∃ pool' : List Char,
        pool'.length ≤ pool.length ∧ ∀ rest,
          strike cfg (entry :: rest) path place depth pool captures =
            strike cfg rest path (place + 1) depth pool' captures := by
  cases entry with
  | range m first last => exact .inl ⟨m, first, last, rfl⟩
  | literal _ c _ =>
    exact .inr ⟨nofun, fun pool _ => ⟨_, List.length_filter_le _ pool, fun _ => rfl⟩⟩
  | _ => exact .inr ⟨nofun, fun pool _ => ⟨_, length_withoutShorthand_le _ pool, fun _ => rfl⟩⟩

/-- The pool that entries leave is no longer than it was. -/
theorem length_strike_le {entries : List Node} {pool pool' : List Char}
    {captures captures' : Captures Path}
    (h : (strike cfg entries path place depth pool captures).Gives src s (pool', captures') s') :
    pool'.length ≤ pool.length := by
  induction entries generalizing place pool captures s with
  | nil =>
    cases h.1
    exact Nat.le_refl _
  | cons entry rest ih =>
    rcases range_or_strike_cons cfg entry path place depth with
      ⟨m, first, last, rfl⟩ | ⟨-, hentry⟩
    · obtain ⟨⟨a, b, captures₁⟩, s₁, -, h⟩ := gives_bind.mp (gives_note.mp h)
      calc pool'.length
          ≤ (withoutShorthand m.text (pool.filter fun c => ¬(a ≤ c ∧ c ≤ b))).length := ih h
        _ ≤ (pool.filter fun c => ¬(a ≤ c ∧ c ≤ b)).length := length_withoutShorthand_le _ _
        _ ≤ pool.length := List.length_filter_le _ _
    · obtain ⟨left, hleft, hrest⟩ := hentry pool captures
      rw [hrest] at h
      exact Nat.le_trans (ih h) hleft

/-- A range fails if its ends do. -/
theorem fails_range {m : Mark} {first last : Node} (hsrc : src.KeepsIntegers)
    (hdepth : depth < cfg.maxDepth) :
    (emit cfg (.range m first last) path depth p).Fails src s e ↔
      (ends m.offset (endpoint first.offset (emit cfg first (0 :: path) (depth + 1)))
        (endpoint last.offset (emit cfg last (1 :: path) (depth + 1))) p.captures).Fails
          src s e := by
  unfold emit
  rw [if_neg (Nat.not_le.mpr hdepth), fails_note]
  refine fails_bind.trans (or_iff_left ?_)
  rintro ⟨⟨a, b, captures⟩, s', hends, h⟩
  exact not_fails_between hsrc (le_of_gives_ends hends) m.offset _ h

/-- Of the entries of an inverted set only a range fails, after the entries before it. -/
theorem fails_strike {entries : List Node} {pool : List Char} {captures : Captures Path}
    (hsrc : src.KeepsIntegers) (hdepth : depth < cfg.maxDepth) :
    (strike cfg entries path place (depth + 1) pool captures).Fails src s e ↔
      ∃ before n after, entries = before ++ n :: after ∧ n.tag = .range ∧ ∃ pool' captures' s',
        (strike cfg before path place (depth + 1) pool captures).Gives src s (pool', captures') s' ∧
        (emit cfg n ((place + before.length) :: path) depth
          { captures := captures' }).Fails src s' e := by
  induction entries generalizing place pool captures s with
  | nil => exact iff_of_false not_fails_pure not_exists_split_nil
  | cons entry rest ih =>
    have hplace (before : List Node) : place + 1 + before.length = place + (before.length + 1) := by
      omega
    rw [exists_split_cons]
    rcases range_or_strike_cons cfg entry path place (depth + 1) with
      ⟨m, first, last, rfl⟩ | ⟨hentry, hstrikes⟩
    · -- The ends of the range fail, or an entry after it does with what they have captured.
      refine fails_note.trans (fails_bind.trans (or_congr ?_ ?_))
      · simp only [strike, gives_pure, Prod.mk.injEq, List.length_nil, Nat.add_zero]
        refine ⟨fun h => ⟨rfl, pool, captures, s, ⟨⟨rfl, rfl⟩, rfl⟩, ?_⟩, ?_⟩
        · exact (fails_range hsrc hdepth).mpr h
        · rintro ⟨-, _, _, _, ⟨⟨rfl, rfl⟩, rfl⟩, h⟩
          exact (fails_range hsrc hdepth).mp h
      simp only [List.length_cons, ← hplace, strike, gives_note, gives_bind]
      constructor
      · rintro ⟨r, s₁, hends, h⟩
        obtain ⟨before, n, after, hrest, hn, pool', captures', s', hgives, hfails⟩ := ih.mp h
        exact ⟨before, n, after, hrest, hn, pool', captures', s', ⟨r, s₁, hends, hgives⟩, hfails⟩
      · rintro ⟨before, n, after, hrest, hn, pool', captures', s', ⟨r, s₁, hends, hgives⟩, hfails⟩
        exact ⟨r, s₁, hends,
          ih.mpr ⟨before, n, after, hrest, hn, pool', captures', s', hgives, hfails⟩⟩
    · -- Nothing is evaluated, so one of the others fails.
      obtain ⟨left, -, hleft⟩ := hstrikes pool captures
      rw [hleft, ih, or_iff_right fun h => hentry h.1]
      simp only [List.length_cons, ← hplace, hleft]

end Walks

end PatternSampler
