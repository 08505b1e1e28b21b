import PatternSampler.Pattern.Build
import PatternSampler.Sample.Emit

/-!
# Playing back a run

What a run asks for next depends on nothing but the answers that it has got so far. A source
`Replays` some calls from a state if it gives their answers when it is asked for them in turn. Then
every run that has made these calls is made again (`Sampler.run_of_replays`), whatever else the
source does. One such source is `Source.replies`, which plays back a list of answers, and where the
answers lie within the bounds of their queries a script of numbers does as well
(`Source.scripted_replays`).

A `Reply` is an answer that does not say what has been asked. `Sampler.queryAfter` reads the next
query off the replies so far, without a source.
-/

namespace PatternSampler

/-- An answer without its query. -/
inductive Reply where
  | side (isFirst : Bool)
  | word (n : UInt32)
  | letter (c : Char)
  deriving DecidableEq, Repr

namespace Query

/-- An answer to a query as a reply. -/
def reply : (q : Query) → q.Answer → Reply
  | .boolean, b => .side b
  | .integer .., n => .word n
  | .character, c => .letter c

/-- The answer that a reply is to a query, if it is of the right kind. -/
def answer? : (q : Query) → Reply → Option q.Answer
  | .boolean, .side b => some b
  | .integer .., .word n => some n
  | .character, .letter c => some c
  | _, _ => none

/-- Some answer to a query. -/
def anyAnswer : (q : Query) → q.Answer
  | .boolean => false
  | .integer least _ => least
  | .character => ' '

/-- A reply that an answer was made to is that answer. -/
@[simp] theorem answer?_reply (q : Query) (a : q.Answer) : q.answer? (q.reply a) = some a := by
  cases q <;> rfl

end Query

namespace Call

/-- The answer of a call as a reply. -/
def reply (c : Call) : Reply := c.query.reply c.answer

/-- The answer is one that a source in bounds could give: the bounds of an integer are in order and
it lies between them, and a character is a printable one. -/
def IsPossible : Call → Prop
  | ⟨.boolean, _⟩ => True
  | ⟨.integer least most, n⟩ => least ≤ n ∧ n ≤ most
  | ⟨.character, c⟩ => 0x20 ≤ c.toNat ∧ c.toNat ≤ 0x7E

instance : DecidablePred IsPossible
  | ⟨.boolean, _⟩ => inferInstanceAs (Decidable True)
  | ⟨.integer _ _, _⟩ => inferInstanceAs (Decidable (_ ∧ _))
  | ⟨.character, _⟩ => inferInstanceAs (Decidable (_ ∧ _))

/-- The number in a script that stands for the answer of a call: how many possible answers come
before it. -/
def number : Call → UInt64
  | ⟨.boolean, b⟩ => if b then 1 else 0
  | ⟨.integer least _, n⟩ => n.toUInt64 - least.toUInt64
  | ⟨.character, c⟩ => UInt64.ofNat (c.toNat - 0x20)

end Call

namespace Source

variable {σ : Type}

/-- From a state a source gives the answers of some calls when it is asked for them in turn. -/
def Replays (src : Source σ) : σ → List Call → Prop
  | _, [] => True
  | s, c :: cs =>
    (src.answer c.query s).1 = c.answer ∧ src.Replays (src.answer c.query s).2 cs

/-- The state that a source is left in by the queries of some calls. -/
def after (src : Source σ) : σ → List Call → σ
  | s, [] => s
  | s, c :: cs => src.after (src.answer c.query s).2 cs

/-- Answers with the replies in its state, one after the other, and then with anything. -/
def replies : Source (List Reply) where
  answer q
    | [] => (q.anyAnswer, [])
    | r :: rs => ((q.answer? r).getD q.anyAnswer, rs)

/-- A list of replies replays the calls that they were made in, and is used up by them. -/
theorem replies_replays (calls : List Call) :
    replies.Replays (calls.map Call.reply) calls ∧
      replies.after (calls.map Call.reply) calls = [] := by
  induction calls with
  | nil => exact ⟨trivial, rfl⟩
  | cons c cs ih =>
    have hanswer : replies.answer c.query ((c :: cs).map Call.reply) =
        (c.answer, cs.map Call.reply) := by
      simp [replies, Call.reply]
    rw [Replays, after, hanswer]
    exact ⟨⟨rfl, ih.1⟩, ih.2⟩

/-- As many integers lie within bounds in order as numbers do. -/
theorem toNat_extent {least most : UInt32} (h : least ≤ most) :
    (extent least most).toNat = most.toNat - least.toNat + 1 := by
  rw [UInt32.le_iff_toNat_le] at h
  have hlt := most.toNat_lt
  have hlt' := least.toNat_lt
  have hone : (1 : UInt64).toNat = 1 := rfl
  rw [extent, UInt64.toNat_add, UInt64.toNat_sub, UInt32.toNat_toUInt64, UInt32.toNat_toUInt64,
    hone]
  omega

/-- The number of a possible answer makes a script give it. -/
theorem scripted_answer (script rest : List UInt64) {c : Call} (hc : c.IsPossible) :
    (scripted script).answer c.query (c.number :: rest) = (c.answer, rest) := by
  obtain ⟨q, a⟩ := c
  cases q with
  | boolean => cases a <;> rfl
  | integer least most =>
    obtain ⟨hleast, hmost⟩ := hc
    have hextent := toNat_extent (UInt32.le_trans hleast hmost)
    rw [UInt32.le_iff_toNat_le] at hleast hmost
    have hlt := most.toNat_lt
    -- The number is below the extent of the bounds, so that the remainder leaves it as it is.
    have hnumber : (a.toUInt64 - least.toUInt64).toNat = a.toNat - least.toNat := by
      rw [UInt64.toNat_sub, UInt32.toNat_toUInt64, UInt32.toNat_toUInt64]
      omega
    have hmod : ((a.toUInt64 - least.toUInt64) % extent least most).toNat =
        a.toNat - least.toNat := by
      rw [UInt64.toNat_mod, hnumber, hextent]
      exact Nat.mod_eq_of_lt (by omega)
    have hvalue : (least.toUInt64 + (a.toUInt64 - least.toUInt64) %
        extent least most).toUInt32 = a := by
      rw [← UInt32.toNat_inj, UInt64.toNat_toUInt32, UInt64.toNat_add, UInt32.toNat_toUInt64, hmod]
      omega
    exact Prod.ext hvalue rfl
  | character =>
    obtain ⟨hleast, hmost⟩ := hc
    have hnumber : (UInt64.ofNat (a.toNat - 0x20) % 95).toNat = a.toNat - 0x20 := by
      have h95 : (95 : UInt64).toNat = 95 := rfl
      rw [UInt64.toNat_mod, UInt64.toNat_ofNat', h95]
      omega
    have hvalue : Char.ofNat (0x20 + (UInt64.ofNat (a.toNat - 0x20) % 95).toNat) = a := by
      rw [hnumber, Nat.add_sub_cancel' hleast, Char.ofNat_toNat]
    exact Prod.ext hvalue rfl

/-- A script of the numbers of possible answers replays their calls. -/
theorem scripted_replays (script : List UInt64) {calls : List Call}
    (h : ∀ c ∈ calls, c.IsPossible) :
    (scripted script).Replays (calls.map Call.number) calls := by
  induction calls with
  | nil => trivial
  | cons c cs ih =>
    obtain ⟨hc, hcs⟩ := List.forall_mem_cons.mp h
    rw [List.map_cons, Replays, scripted_answer script _ hc]
    exact ⟨rfl, ih hcs⟩

end Source

namespace Sampler

variable {α σ τ : Type}

/-- What is asked for next when some replies have been given, if anything is. -/
def queryAfter : Sampler α → List Reply → Option Query
  | done _, _ | fail _, _ => none
  | note _ next, replies => (next ()).queryAfter replies
  | ask q _, [] => some q
  | ask q next, r :: rs =>
    match q.answer? r with
    | some a => (next a).queryAfter rs
    | none => none

/-- A run is made again with every source that replays its calls, and leaves that source in the
state after them. -/
theorem run_of_replays (src : Source σ) (src' : Source τ) (p : Sampler α) (s : σ) (s' : τ)
    (h : src'.Replays s' (p.run src s).calls) :
    p.run src' s' = ⟨(p.run src s).result, (p.run src s).steps,
      src'.after s' (p.run src s).calls⟩ := by
  induction p generalizing s s' with
  | done a => rfl
  | fail e => rfl
  | note e next ih =>
    rw [calls_run_note] at h ⊢
    rw [run_note, run_note, ih () s s' h]
  | ask q next ih =>
    rw [calls_run_ask] at h ⊢
    obtain ⟨hanswer, hrest⟩ := h
    dsimp only at hanswer hrest
    rw [run_ask, run_ask, Source.after]
    dsimp only
    rw [hanswer, ih _ _ _ hrest]

/-- A run replays its own calls. -/
theorem replays_calls_run (src : Source σ) (p : Sampler α) (s : σ) :
    src.Replays s (p.run src s).calls := by
  induction p generalizing s with
  | done a => trivial
  | fail e => trivial
  | note e next ih =>
    rw [calls_run_note]
    exact ih () s
  | ask q next ih =>
    rw [calls_run_ask]
    exact ⟨rfl, ih _ _⟩

/-- The next query of a run can be read off the replies to those before it. -/
theorem query_getElem? (src : Source σ) (p : Sampler α) (s : σ) (i : Nat) :
    ((p.run src s).calls[i]?).map Call.query =
      p.queryAfter (((p.run src s).calls.take i).map Call.reply) := by
  induction p generalizing s i with
  | done a => rfl
  | fail e => rfl
  | note e next ih =>
    rw [calls_run_note, ih]
    rfl
  | ask q next ih =>
    rw [calls_run_ask]
    cases i with
    | zero => rfl
    | succ i =>
      rw [List.getElem?_cons_succ, List.take_succ_cons, List.map_cons, ih]
      simp only [queryAfter, Call.reply, Query.answer?_reply]

end Sampler

/-- Playing back a run of a pattern. Another source makes the same calls with the same answers just
if it replays them, and then the run goes through the same steps to the same text or error, and has
asked that source for nothing more. A list of the answers alone replays them, and is used up; where
the answers lie within bounds, so does a script of numbers. Each query is read off the pattern, the
limits and the answers before it. -/
theorem run_replay {σ : Type} (src : Source σ) (cfg : Config) (node : Node) (s : σ) :
    let p := sample cfg node
    let o := p.run src s
    (∀ {τ : Type} (src' : Source τ) (s' : τ),
      (src'.Replays s' o.calls ↔ (p.run src' s').calls = o.calls) ∧
        (src'.Replays s' o.calls →
          p.run src' s' = ⟨o.result, o.steps, src'.after s' o.calls⟩)) ∧
      p.run Source.replies (o.calls.map Call.reply) = ⟨o.result, o.steps, []⟩ ∧
      ((∀ c ∈ o.calls, c.IsPossible) → ∀ script : List UInt64,
        let o' := p.run (Source.scripted script) (o.calls.map Call.number)
        o'.result = o.result ∧ o'.steps = o.steps) ∧
      ∀ i, (o.calls[i]?).map Call.query = p.queryAfter ((o.calls.take i).map Call.reply) := by
  intro p o
  have hreplay {τ : Type} (src' : Source τ) (s' : τ) (h : src'.Replays s' o.calls) :
      p.run src' s' = ⟨o.result, o.steps, src'.after s' o.calls⟩ :=
    Sampler.run_of_replays src src' p s s' h
  refine ⟨fun src' s' => ⟨⟨fun h => ?_, fun h => ?_⟩, hreplay src' s'⟩, ?_, fun h script => ?_,
    fun i => Sampler.query_getElem? src p s i⟩
  · rw [hreplay src' s' h]
    rfl
  · rw [← h]
    exact Sampler.replays_calls_run src' p s'
  · obtain ⟨hreplies, hafter⟩ := Source.replies_replays o.calls
    rw [hreplay _ _ hreplies, hafter]
  · have hrun := hreplay _ _ (Source.scripted_replays script h)
    exact ⟨congrArg Outcome.result hrun, congrArg Outcome.steps hrun⟩

/-- A digit or any character, once or more often, and a small letter behind it. -/
def Node.digitOrAnyThenLetter : Node :=
  .ofSequence [.repeated (.either (.token { } .digit) (.token { } .anyCharacter)) (.times 1 none),
    .span 'a' 'z']

/-- Two rounds and a letter, all from the greatest answers, and the same run from a script. -/
theorem run_replay_digitOrAnyThenLetter :
    let cfg : Config := { extraFrom := 0, extraTo := 1 }
    let p := sample cfg .digitOrAnyThenLetter
    let o := p.run Source.highest ()
    let script : List UInt64 := [1, 1, 1, 9, 1, 9, 25]
    o.calls.map Call.number = script ∧ (∀ c ∈ o.calls, c.IsPossible) ∧ o.result = .ok "99z" ∧
      (Source.scripted script).Replays script o.calls ∧
      p.run (Source.scripted script) script =
        ⟨o.result, o.steps, (Source.scripted script).after script o.calls⟩ ∧
      (p.run (Source.scripted []) script).result = o.result := by
  intro cfg p o script
  have hnumbers : o.calls.map Call.number = script := by decide
  have hpossible : ∀ c ∈ o.calls, c.IsPossible := by decide
  have hscript : (Source.scripted script).Replays script o.calls := by
    rw [← hnumbers]
    exact Source.scripted_replays _ hpossible
  obtain ⟨hreplay, -, hscripted, -⟩ := run_replay Source.highest cfg .digitOrAnyThenLetter ()
  have hresult := (hscripted hpossible []).1
  rw [hnumbers] at hresult
  exact ⟨hnumbers, hpossible, rfl, hscript, (hreplay _ _).2 hscript, hresult⟩

end PatternSampler
