import PatternSampler.Sample.Sampler

/-!
# What a sampler may give

A source keeps to its bounds when every answer lies within those of its query. `Sampler.MayGive`
says which values a sampler gives when it is answered so, without a source: at every choice some
allowed answer leads on to the value. `mayGive_iff_exists_run` shows that these are the values that
some source in bounds makes it give. One source is enough for all of them, `Source.recorded`, which
plays back the calls in its state.
-/

namespace PatternSampler

/-- An answer is allowed if it lies within the bounds of its query. Where the bounds of an integer
are the wrong way round, nothing is asked of it. -/
def Query.Allows : (q : Query) → q.Answer → Prop
  | .boolean, _ => True
  | .integer least most, n => least ≤ most → least ≤ n ∧ n ≤ most
  | .character, c => 0x20 ≤ c.toNat ∧ c.toNat ≤ 0x7E

/-- A source keeps to its bounds if all its answers are allowed. -/
def Source.InBounds {σ : Type} (src : Source σ) : Prop :=
  ∀ (q : Query) (s : σ), q.Allows (src.answer q s).1

/-- The source that takes the least of everything keeps to its bounds. -/
theorem Source.lowest_inBounds : Source.lowest.InBounds := by
  intro q s
  cases q with
  | boolean => trivial
  | integer least most => exact fun h => ⟨UInt32.le_refl least, h⟩
  | character => exact (by decide : 0x20 ≤ ' '.toNat ∧ ' '.toNat ≤ 0x7E)

/-- A call whose answer is allowed. -/
def AllowedCall : Type := { c : Call // c.query.Allows c.answer }

/-- An allowed answer to a query. -/
def Query.allowed : (q : Query) → { a : q.Answer // q.Allows a }
  | .boolean => ⟨false, trivial⟩
  | .integer least _ => ⟨least, fun h => ⟨UInt32.le_refl least, h⟩⟩
  | .character => ⟨' ', by simp only [Allows]; decide⟩

/-- Answers as the calls in its state do, as long as they have the queries that are made. -/
def Source.recorded : Source (List AllowedCall) where
  answer q
    | [] => (q.allowed, [])
    | ⟨⟨q', a⟩, _⟩ :: rest => if h : q' = q then (h ▸ a, rest) else (q.allowed, rest)

/-- The calls that are played back are allowed. -/
theorem Source.recorded_inBounds : Source.recorded.InBounds := by
  rintro q (_ | ⟨⟨⟨q', a⟩, ha⟩, rest⟩)
  · exact q.allowed.2
  · unfold recorded
    dsimp only
    split
    · next h =>
      subst h
      exact ha
    · -- The call has another query, so the answer is one that is always there.
      exact q.allowed.2

namespace Sampler

variable {α β σ : Type}

/-- A sampler may give a value if allowed answers lead to it. -/
def MayGive : Sampler α → α → Prop
  | done a, b => b = a
  | fail _, _ => False
  | note _ next, b => (next ()).MayGive b
  | ask q next, b => ∃ a, q.Allows a ∧ (next a).MayGive b

/-- A value gives nothing but itself. -/
@[simp] theorem mayGive_pure {a b : α} : (pure a : Sampler α).MayGive b ↔ b = a := Iff.rfl

/-- A failure gives nothing. -/
@[simp] theorem mayGive_fail {e : SampleError} {b : α} : (fail e : Sampler α).MayGive b ↔ False :=
  Iff.rfl

/-- An event does not change what may be given. -/
@[simp] theorem mayGive_note {e : Event} {next : Unit → Sampler α} {b : α} :
    (note e next).MayGive b ↔ (next ()).MayGive b := Iff.rfl

/-- Two samplers in a row may give what the second may give after a value of the first. -/
@[simp] theorem mayGive_bind {p : Sampler α} {f : α → Sampler β} {b : β} :
    (p >>= f).MayGive b ↔ ∃ a, p.MayGive a ∧ (f a).MayGive b := by
  induction p with
  | done a => exact ⟨fun h => ⟨a, rfl, h⟩, fun ⟨_, rfl, h⟩ => h⟩
  | fail e => exact ⟨False.elim, fun ⟨_, h, _⟩ => h⟩
  | note e next ih => exact ih ()
  | ask q next ih =>
    constructor
    · rintro ⟨a, ha, h⟩
      obtain ⟨x, hx, hb⟩ := (ih a).mp h
      exact ⟨x, ⟨a, ha, hx⟩, hb⟩
    · rintro ⟨x, ⟨a, ha, hx⟩, hb⟩
      exact ⟨a, ha, (ih a).mpr ⟨x, hx, hb⟩⟩

/-- A changed value comes from a value that may be given. -/
@[simp] theorem mayGive_map {p : Sampler α} {f : α → β} {b : β} :
    (f <$> p).MayGive b ↔ ∃ a, p.MayGive a ∧ b = f a := by
  rw [← bind_pure_comp, mayGive_bind]
  rfl

/-- What a source in bounds makes a sampler give may be given. -/
theorem mayGive_of_run {src : Source σ} (hsrc : src.InBounds) {p : Sampler α} {s : σ} {a : α}
    (h : (p.run src s).result = .ok a) : p.MayGive a := by
  induction p generalizing s with
  | done b =>
    cases h
    rfl
  | fail e => cases h
  | note e next ih =>
    rw [run_note] at h
    exact ih () h
  | ask q next ih =>
    rw [run_ask] at h
    exact ⟨(src.answer q s).1, hsrc q s, ih _ h⟩

/-- What may be given is given when the right calls are played back. -/
theorem exists_run_recorded {p : Sampler α} {a : α} (h : p.MayGive a) :
    ∃ s, (p.run Source.recorded s).result = .ok a := by
  induction p with
  | done b => exact ⟨[], congrArg _ (Eq.symm h)⟩
  | fail e => exact h.elim
  | note e next ih =>
    obtain ⟨s, hs⟩ := ih () h
    exact ⟨s, by rw [run_note]; exact hs⟩
  | ask q next ih =>
    obtain ⟨x, hx, h⟩ := h
    obtain ⟨s, hs⟩ := ih x h
    -- The call with this answer comes before those that the rest plays back.
    refine ⟨⟨⟨q, x⟩, hx⟩ :: s, ?_⟩
    rw [run_ask]
    simpa [Source.recorded] using hs

/-- A sampler may give just the values that sources in bounds make it give. -/
theorem mayGive_iff_exists_run {p : Sampler α} {a : α} :
    p.MayGive a ↔
      ∃ (σ : Type) (src : Source σ) (s : σ), src.InBounds ∧ (p.run src s).result = .ok a := by
  constructor
  · intro h
    obtain ⟨s, hs⟩ := exists_run_recorded h
    exact ⟨_, Source.recorded, s, Source.recorded_inBounds, hs⟩
  · rintro ⟨σ, src, s, hsrc, h⟩
    exact mayGive_of_run hsrc h

end Sampler

end PatternSampler
