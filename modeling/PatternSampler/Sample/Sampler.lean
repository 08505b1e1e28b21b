import PatternSampler.Choice.Source
import PatternSampler.Sample.Error
import PatternSampler.Sample.Event

/-!
# Samplers

A `Sampler` is a computation that asks for choices. It is the tree of everything the computation
could do: what it does next depends on nothing but the answers so far, because the answers are all
that its branches are labelled with. `Sampler.run` walks down the tree with a source and gives the
result together with a trace of the calls and events on the way.
-/

namespace PatternSampler

/-- A computation that asks for choices and gives a value or an error. -/
inductive Sampler (α : Type) where
  | done (a : α)
  | fail (e : SampleError)
  /-- Something happens. The rest is put off, so that a long computation is taken in steps. -/
  | note (e : Event) (next : Unit → Sampler α)
  /-- A choice is asked for. -/
  | ask (q : Query) (next : q.Answer → Sampler α)

/-- A step of a run: a query with its answer, or an event. -/
inductive Step where
  | call (c : Call)
  | event (e : Event)

/-- What a run gives: its result, its steps in order, and the state of the source after it. -/
structure Outcome (σ α : Type) where
  result : Except SampleError α
  steps : List Step
  state : σ

namespace Sampler

variable {α β σ : Type}

/-- A sampler followed by another that depends on its value. -/
def bind : Sampler α → (α → Sampler β) → Sampler β
  | done a, f => f a
  | fail e, _ => fail e
  | note e next, f => note e fun u => (next u).bind f
  | ask q next, f => ask q fun a => (next a).bind f

instance : Monad Sampler where
  pure := done
  bind := bind

/-- A sampler followed by nothing more is the sampler itself. -/
theorem bind_done_right (p : Sampler α) : p.bind done = p := by
  induction p with
  | done => rfl
  | fail => rfl
  | note e next ih => simp only [bind, ih]
  | ask q next ih => simp only [bind, ih]

/-- Which two of three samplers in a row are put together first does not matter. -/
theorem bind_bind {γ : Type} (p : Sampler α) (f : α → Sampler β) (g : β → Sampler γ) :
    (p.bind f).bind g = p.bind fun a => (f a).bind g := by
  induction p with
  | done => rfl
  | fail => rfl
  | note e next ih => simp only [bind, ih]
  | ask q next ih => simp only [bind, ih]

instance : LawfulMonad Sampler :=
  LawfulMonad.mk' Sampler bind_done_right (fun _ _ => rfl) bind_bind

/-- A failure is not followed by anything. -/
@[simp] theorem fail_bind (e : SampleError) (f : α → Sampler β) :
    (fail e : Sampler α) >>= f = fail e := rfl

/-- What follows an event comes after it. -/
@[simp] theorem note_bind (e : Event) (next : Unit → Sampler α) (f : α → Sampler β) :
    note e next >>= f = note e fun u => next u >>= f := rfl

/-- What follows a choice comes after each answer. -/
@[simp] theorem ask_bind (q : Query) (next : q.Answer → Sampler α) (f : α → Sampler β) :
    ask q next >>= f = ask q fun a => next a >>= f := rfl

/-- A failure gives no value to change. -/
@[simp] theorem map_fail (e : SampleError) (f : α → β) :
    f <$> (fail e : Sampler α) = fail e := rfl

/-- A value that is changed at the end is changed after an event. -/
@[simp] theorem map_note (e : Event) (next : Unit → Sampler α) (f : α → β) :
    f <$> note e next = note e fun u => f <$> next u := rfl

/-- A value that is changed at the end is changed after each answer. -/
@[simp] theorem map_ask (q : Query) (next : q.Answer → Sampler α) (f : α → β) :
    f <$> ask q next = ask q fun a => f <$> next a := rfl

/-- Asks for one of two sides. -/
def boolean : Sampler Bool := ask .boolean done

/-- Asks for an integer within bounds, ends included. -/
def integer (least most : UInt32) : Sampler UInt32 := ask (.integer least most) done

/-- Asks for a printable ASCII character. -/
def character : Sampler Char := ask .character done

/-- Says what happens. -/
def tell (e : Event) : Sampler Unit := note e done

/-- What follows a saying comes after its event. -/
@[simp] theorem tell_bind (e : Event) (f : Unit → Sampler α) : tell e >>= f = note e f := rfl

/-- Asks for an index below `n`. There is none if `n` is zero, and none is asked for if the last
one needs more than thirty-two bits. -/
def index (n : Nat) : Sampler (Option Nat) :=
  if 0 < n ∧ n ≤ 0xFFFFFFFF then do
    let i ← integer 0 (UInt32.ofNat (n - 1))
    pure (some i.toNat)
  else pure none

/-- Asks for an element of a list. -/
def pick (as : List α) : Sampler (Option α) := do
  let i ← index as.length
  pure (i.bind (as[·]?))

/-- A step taken a number of times. -/
def iterate (step : α → Sampler α) : Nat → α → Sampler α
  | 0, a => pure a
  | n + 1, a => do
    let a ← step a
    iterate step n a

/-- Goes on with a run whose steps so far are given with the latest first. -/
def runFrom (src : Source σ) : Sampler α → σ → List Step → Outcome σ α
  | done a, s, steps => ⟨.ok a, steps.reverse, s⟩
  | fail e, s, steps => ⟨.error e, steps.reverse, s⟩
  | note e next, s, steps => (next ()).runFrom src s (.event e :: steps)
  | ask q next, s, steps =>
    let (a, s) := src.answer q s
    (next a).runFrom src s (.call ⟨q, a⟩ :: steps)

/-- Runs a sampler with a source in a given state. -/
def run (src : Source σ) (p : Sampler α) (s : σ) : Outcome σ α :=
  p.runFrom src s []

/-- Earlier steps stay in front of those that a run adds. -/
theorem runFrom_eq (src : Source σ) (p : Sampler α) (s : σ) (earlier : List Step) :
    p.runFrom src s earlier =
      { p.run src s with steps := earlier.reverse ++ (p.run src s).steps } := by
  unfold run
  induction p generalizing s earlier with
  | done => simp [runFrom]
  | fail => simp [runFrom]
  | note e next ih =>
    simp only [runFrom]
    rw [ih () s (_ :: earlier), ih () s [_]]
    simp
  | ask q next ih =>
    simp only [runFrom]
    rw [ih _ _ (_ :: earlier), ih _ _ [_]]
    simp

/-- A finished sampler takes no step. -/
@[simp] theorem run_done (src : Source σ) (a : α) (s : σ) :
    (done a).run src s = ⟨.ok a, [], s⟩ := rfl

/-- A value takes no step. -/
@[simp] theorem run_pure (src : Source σ) (a : α) (s : σ) :
    (pure a : Sampler α).run src s = ⟨.ok a, [], s⟩ := rfl

/-- A failed sampler takes no step. -/
@[simp] theorem run_fail (src : Source σ) (e : SampleError) (s : σ) :
    (fail e : Sampler α).run src s = ⟨.error e, [], s⟩ := rfl

/-- An event is the first step of a run that goes on in the same state. -/
@[simp] theorem run_note (src : Source σ) (e : Event) (next : Unit → Sampler α) (s : σ) :
    (note e next).run src s =
      { (next ()).run src s with steps := .event e :: ((next ()).run src s).steps } :=
  runFrom_eq src (next ()) s [.event e]

/-- A call is the first step of a run that goes on in the state after the answer. -/
@[simp] theorem run_ask (src : Source σ) (q : Query) (next : q.Answer → Sampler α) (s : σ) :
    (ask q next).run src s =
      let (a, s) := src.answer q s
      { (next a).run src s with steps := .call ⟨q, a⟩ :: ((next a).run src s).steps } :=
  runFrom_eq src _ _ [_]

end Sampler

namespace Outcome

variable {σ α β : Type}

/-- The outcome with another value, if it has one. -/
def map (f : α → β) (o : Outcome σ α) : Outcome σ β where
  result := o.result.map f
  steps := o.steps
  state := o.state

/-- A value that is changed twice is changed by both functions in turn. -/
theorem map_map {γ : Type} (f : α → β) (g : β → γ) (o : Outcome σ α) :
    (o.map f).map g = o.map (g ∘ f) := by
  obtain ⟨_ | _, steps, state⟩ := o <;> rfl

/-- The outcome of a first run followed by that of a second one, which starts from the value and the
state of the first. After an error there is no second run. -/
def andThen (o : Outcome σ α) (f : α → σ → Outcome σ β) : Outcome σ β :=
  match o.result with
  | .ok a => { f a o.state with steps := o.steps ++ (f a o.state).steps }
  | .error e => ⟨.error e, o.steps, o.state⟩

/-- The calls of a run, in order. -/
def calls (o : Outcome σ α) : List Call :=
  o.steps.filterMap fun
    | .call c => some c
    | .event _ => none

/-- The events of a run, in order. -/
def events (o : Outcome σ α) : List Event :=
  o.steps.filterMap fun
    | .call _ => none
    | .event e => some e

/-- The records that a run leaves in a log, in order. -/
def records (o : Outcome σ α) : List Record :=
  o.events.filterMap Event.record?

end Outcome

namespace Sampler

variable {α β σ : Type}

/-- An event is the first of the events of a run. -/
theorem events_run_note (src : Source σ) (e : Event) (next : Unit → Sampler α) (s : σ) :
    ((note e next).run src s).events = e :: ((next ()).run src s).events := by
  rw [run_note]
  rfl

/-- A call is no event. -/
theorem events_run_ask (src : Source σ) (q : Query) (next : q.Answer → Sampler α) (s : σ) :
    ((ask q next).run src s).events =
      ((next (src.answer q s).1).run src (src.answer q s).2).events := by
  rw [run_ask]
  rfl

/-- An event is no call. -/
theorem calls_run_note (src : Source σ) (e : Event) (next : Unit → Sampler α) (s : σ) :
    ((note e next).run src s).calls = ((next ()).run src s).calls := by
  rw [run_note]
  rfl

/-- A call is the first of the calls of a run. -/
theorem calls_run_ask (src : Source σ) (q : Query) (next : q.Answer → Sampler α) (s : σ) :
    ((ask q next).run src s).calls =
      ⟨q, (src.answer q s).1⟩ ::
        ((next (src.answer q s).1).run src (src.answer q s).2).calls := by
  rw [run_ask]
  rfl

/-- A run of two samplers in a row is a run of the first followed by one of the second. -/
theorem run_bind (src : Source σ) (p : Sampler α) (f : α → Sampler β) (s : σ) :
    (p >>= f).run src s = (p.run src s).andThen fun a s => (f a).run src s := by
  induction p generalizing s with
  | done a => rfl
  | fail e => rfl
  | note e next ih =>
    rw [note_bind, run_note, ih, run_note]
    simp only [Outcome.andThen]
    split <;> rfl
  | ask q next ih =>
    rw [ask_bind, run_ask, run_ask]
    simp only [ih, Outcome.andThen]
    split <;> rfl

/-- A value that is changed at the end changes nothing about the run before. -/
theorem run_map (src : Source σ) (p : Sampler α) (f : α → β) (s : σ) :
    (f <$> p).run src s = (p.run src s).map f := by
  rw [← bind_pure_comp, run_bind, Outcome.andThen, Outcome.map]
  cases h : (p.run src s).result with
  | ok a => simp [pure, Except.map]
  | error e => rfl

end Sampler

end PatternSampler
