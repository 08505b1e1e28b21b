import PatternSampler.CommandLine.Response
import PatternSampler.Proofs.Arguments

/-!
# What a run of the program writes

Samples in a row are drawn from one source, and the program stops at the first that fails.
`given` are the texts of some outcomes up to the first error, and `firstError?` is that error. A
stream of samples is made up of these two for the outcomes in a row (`stream_eq`), whose number
only decides how far the same sequence goes (`successive_isPrefix`). So the output of a run starts
with that of a run with a smaller count, and a run that fails does not depend on its count
(`respond_stream`).
-/

namespace PatternSampler

variable {σ : Type}

/-- The error of an outcome, if it has no value. -/
def Outcome.error? {α : Type} (o : Outcome σ α) : Option SampleError :=
  match o.result with
  | .ok _ => none
  | .error e => some e

/-- An outcome with a value has no error. -/
theorem Outcome.error?_ok {α : Type} {o : Outcome σ α} {a : α} (h : o.result = .ok a) :
    o.error? = none := by
  rw [error?, h]

/-- An outcome without a value has its error. -/
theorem Outcome.error?_error {α : Type} {o : Outcome σ α} {e : SampleError}
    (h : o.result = .error e) : o.error? = some e := by
  rw [error?, h]

/-- The texts that some outcomes give, up to the first error. -/
def given (outcomes : List (Outcome σ String)) : List String :=
  (outcomes.takeWhile (·.result.isOk)).filterMap (·.result.toOption)

/-- The first error among some outcomes. -/
def firstError? (outcomes : List (Outcome σ String)) : Option SampleError :=
  outcomes.findSome? Outcome.error?

section Outcomes

variable {o : Outcome σ String} {outcomes later : List (Outcome σ String)} {text : String}
  {e : SampleError}

/-- An outcome with a text gives it before those after it. -/
theorem given_ok (h : o.result = .ok text) (outcomes : List (Outcome σ String)) :
    given (o :: outcomes) = text :: given outcomes := by
  have hok : o.result.isOk = true := by
    rw [h]
    rfl
  have hvalue : o.result.toOption = some text := by
    rw [h]
    rfl
  simp only [given, List.takeWhile_cons, hok, if_true, List.filterMap_cons, hvalue]

/-- Nothing is given from an outcome with an error on. -/
theorem given_error (h : o.result = .error e) (outcomes : List (Outcome σ String)) :
    given (o :: outcomes) = [] := by
  have hfails : o.result.isOk = false := by
    rw [h]
    rfl
  simp only [given, List.takeWhile_cons, hfails, Bool.false_eq_true, if_false, List.filterMap_nil]

/-- The first error comes after an outcome with a text. -/
theorem firstError?_ok (h : o.result = .ok text) (outcomes : List (Outcome σ String)) :
    firstError? (o :: outcomes) = firstError? outcomes := by
  simp only [firstError?, List.findSome?_cons, Outcome.error?_ok h]

/-- The first error is that of the first outcome, if it has one. -/
theorem firstError?_error (h : o.result = .error e) (outcomes : List (Outcome σ String)) :
    firstError? (o :: outcomes) = some e := by
  simp only [firstError?, List.findSome?_cons, Outcome.error?_error h]

/-- There is no error if all outcomes have a text. -/
theorem firstError?_eq_none_iff :
    firstError? outcomes = none ↔ ∀ o ∈ outcomes, o.result.isOk = true := by
  rw [firstError?, List.findSome?_eq_none_iff]
  refine forall₂_congr fun o _ => ?_
  cases hresult : o.result with
  | ok text => exact iff_of_true (Outcome.error?_ok hresult) rfl
  | error e =>
    rw [Outcome.error?_error hresult]
    exact iff_of_false nofun nofun

/-- The first error is one of an outcome. -/
theorem exists_mem_of_firstError? (h : firstError? outcomes = some e) :
    ∃ o ∈ outcomes, o.result = .error e := by
  obtain ⟨o, ho, herror⟩ := List.exists_of_findSome?_eq_some h
  refine ⟨o, ho, ?_⟩
  cases hresult : o.result with
  | ok text =>
    rw [Outcome.error?_ok hresult] at herror
    cases herror
  | error e' =>
    rw [Outcome.error?_error hresult] at herror
    exact congrArg _ (Option.some.inj herror)

/-- What is given does not become less with more outcomes, and nor does it become more after an
error. -/
theorem given_append (outcomes later : List (Outcome σ String)) :
    given (outcomes ++ later) =
      given outcomes ++ if firstError? outcomes = none then given later else [] := by
  induction outcomes with
  | nil => rfl
  | cons o outcomes ih =>
    rw [List.cons_append]
    -- An error ends both sides, and a text leaves the question to the outcomes behind it.
    cases h : o.result with
    | ok text => rw [given_ok h, given_ok h, firstError?_ok h, ih, List.cons_append]
    | error e =>
      rw [given_error h, given_error h, firstError?_error h]
      rfl

/-- The first error stays the first. -/
theorem firstError?_append (h : firstError? outcomes = some e) (later : List (Outcome σ String)) :
    firstError? (outcomes ++ later) = some e := by
  rw [firstError?, List.findSome?_append, ← firstError?, h, Option.some_or]

end Outcomes

variable (src : Source σ) (cfg : Config) (node : Node)

/-- Outcomes in a row go on from fewer of them. -/
theorem successive_isPrefix {m n : Nat} (h : m ≤ n) (s : σ) :
    successive src cfg node m s <+: successive src cfg node n s := by
  induction m generalizing n s with
  | zero => exact List.nil_prefix
  | succ m ih =>
    cases n with
    | zero => exact absurd h (Nat.not_succ_le_zero m)
    | succ n => exact (List.prefix_cons_inj _).mpr (ih (Nat.le_of_succ_le_succ h) _)

/-- A stream in front of which there are earlier texts gives these first. -/
theorem streamFrom_eq (earlier : List String) (n : Nat) (s : σ) :
    streamFrom src cfg node earlier n s =
      (earlier.reverse ++ given (successive src cfg node n s),
        firstError? (successive src cfg node n s)) := by
  induction n generalizing earlier s with
  | zero =>
    rw [streamFrom, successive, given, List.takeWhile_nil, List.filterMap_nil, List.append_nil]
    rfl
  | succ n ih =>
    rw [streamFrom, successive]
    cases h : ((sample cfg node).run src s).result with
    | ok text =>
      dsimp only
      rw [ih, given_ok h, firstError?_ok h, List.reverse_cons, List.append_assoc]
      rfl
    | error e =>
      dsimp only
      rw [given_error h, firstError?_error h, List.append_nil]

/-- A stream is made up of the texts of the outcomes in a row up to the first error, and of that
error. -/
theorem stream_eq (n : Nat) (s : σ) :
    stream src cfg node n s =
      (given (successive src cfg node n s), firstError? (successive src cfg node n s)) :=
  streamFrom_eq src cfg node [] n s

namespace CommandLine

/-- The lines of some texts come before those of others. -/
theorem lines_append (texts more : List String) :
    lines (texts ++ more) = lines texts ++ lines more := by
  rw [lines, List.map_append, String.join_append, lines, lines]

namespace Options

/-- The limits are the usual ones but for the one on nesting that may be given. -/
theorem config_eq (o : Options) : o.config = { maxDepth := o.maxDepth.getD 256 } := by
  unfold config
  cases o.maxDepth with
  | none => rfl
  | some maxDepth => rfl

/-- The outcomes of the samples that are asked for, drawn one after the other from the source of a
seed. -/
def outcomes (o : Options) (seed : UInt64) (node : Node) :
    List (Outcome Keystream.Position String) :=
  successive Source.seeded { maxDepth := o.maxDepth.getD 256 } node o.count (Keystream.start seed)

/-- A larger count goes on with the same outcomes. -/
theorem outcomes_isPrefix {o o' : Options} (hsame : o' = { o with count := o'.count })
    (hle : o.count ≤ o'.count) (seed : UInt64) (node : Node) :
    o.outcomes seed node <+: o'.outcomes seed node := by
  have hdepth : o'.maxDepth = o.maxDepth := by rw [hsame]
  unfold outcomes
  rw [hdepth]
  exact successive_isPrefix _ _ _ hle _

end Options

namespace Response

/-- A failure is reported by its sentence behind a word that says what it is. -/
theorem failure_eq (stdout : String) {f : Failure} {start rest reported : String}
    (hmessage : f.message = start ++ rest) (hreported : reported = "error: " ++ start) :
    failure stdout f = ⟨1, stdout, reported ++ rest ++ "\n"⟩ := by
  have hreport : reported ++ rest = "error: " ++ f.message := by
    rw [hreported, hmessage, String.append_assoc]
  rw [hreport]
  rfl

/-- How it is reported that a text holds no tree. -/
theorem failure_notAPattern (stdout : String) (e : DocumentError) :
    failure stdout (.notAPattern e) =
      ⟨1, stdout, "error: input is not a valid pattern tree: " ++ e.message ++ "\n"⟩ :=
  failure_eq stdout rfl (by decide)

/-- How it is reported that a sample fails. -/
theorem failure_noSample (stdout : String) (e : SampleError) :
    failure stdout (.noSample e) =
      ⟨1, stdout, "error: could not generate a sample: " ++ e.message ++ "\n"⟩ :=
  failure_eq stdout rfl (by decide)

end Response

/-- The response that reports some outcomes: their texts up to the first error, and that error. -/
def report (outcomes : List (Outcome σ String)) : Response :=
  match firstError? outcomes with
  | none => .success (lines (given outcomes))
  | some e => .failure (lines (given outcomes)) (.noSample e)

section Report

variable {outcomes : List (Outcome σ String)} {e : SampleError}

theorem report_none (h : firstError? outcomes = none) :
    report outcomes = ⟨0, lines (given outcomes), ""⟩ := by
  rw [report, h]
  rfl

theorem report_some (h : firstError? outcomes = some e) :
    report outcomes = ⟨1, lines (given outcomes),
      "error: could not generate a sample: " ++ e.message ++ "\n"⟩ := by
  rw [report, h]
  exact Response.failure_noSample _ e

theorem report_stdout (outcomes : List (Outcome σ String)) :
    (report outcomes).stdout = lines (given outcomes) := by
  cases h : firstError? outcomes with
  | none => rw [report_none h]
  | some e => rw [report_some h]

/-- A report is one of success exactly if no outcome is an error. -/
theorem report_status_eq_zero_iff :
    (report outcomes).status = 0 ↔ firstError? outcomes = none := by
  cases h : firstError? outcomes with
  | none =>
    rw [report_none h]
    exact iff_of_true rfl rfl
  | some e =>
    rw [report_some h]
    exact iff_of_false Nat.one_ne_zero nofun

/-- More outcomes only add lines to a report. -/
theorem report_append_stdout (outcomes later : List (Outcome σ String)) :
    ∃ more, (report (outcomes ++ later)).stdout = (report outcomes).stdout ++ more := by
  rw [report_stdout, report_stdout, given_append, lines_append]
  exact ⟨_, rfl⟩

/-- More outcomes change nothing about the report of an error. -/
theorem report_append_of_status_ne_zero (h : (report outcomes).status ≠ 0)
    (later : List (Outcome σ String)) : report (outcomes ++ later) = report outcomes := by
  have hfails : firstError? outcomes ≠ none := fun hnone => h (report_status_eq_zero_iff.mpr hnone)
  obtain ⟨e, he⟩ := Option.ne_none_iff_exists'.mp hfails
  rw [report_some (firstError?_append he later), report_some he, given_append, if_neg hfails,
    List.append_nil]

end Report

/-- The options decide what is done with the tree that their input holds. -/
theorem respond_eq {args : List String} {o : Options}
    (hargs : Command.parse args = .ok (.sample o)) {inputs : Inputs} {text : String}
    (htext : inputs.named o = .ok text) (entropy : UInt64) :
    respond args inputs entropy =
      match Node.ofText text with
      | .error e => .failure "" (.notAPattern e)
      | .ok node => o.samples entropy node := by
  unfold respond
  rw [hargs]
  dsimp only
  rw [htext]
  rfl

/-- The outcomes that are drawn from the seed are reported, or from the entropy if none is given. -/
theorem respond_eq_report {args : List String} {o : Options}
    (hargs : Command.parse args = .ok (.sample o)) {inputs : Inputs} {text : String}
    (htext : inputs.named o = .ok text) {node : Node} (hnode : Node.ofText text = .ok node)
    (entropy : UInt64) :
    respond args inputs entropy = report (o.outcomes (o.seed.getD entropy) node) := by
  rw [respond_eq hargs htext, hnode]
  dsimp only
  unfold Options.samples
  dsimp only
  rw [stream_eq, Options.config_eq, ← Options.outcomes, report]
  cases firstError? (o.outcomes (o.seed.getD entropy) node) with
  | none => rfl
  | some e => rfl

/-- What a run writes. If its input holds no tree, it reports that and writes no line, whatever the
count. If it does, it writes the texts of the samples in a row up to the first that fails, each with
a line break behind it. All is well exactly if none fails; otherwise the error of the first that
does is reported, and the lines before stay. With a larger count there are only more lines, and none
after an error. -/
theorem respond_stream {args : List String} {o : Options}
    (hargs : Command.parse args = .ok (.sample o)) {inputs : Inputs} {text : String}
    (htext : inputs.named o = .ok text) (entropy : UInt64) :
    let r := respond args inputs entropy
    (∀ e, Node.ofText text = .error e →
      r = ⟨1, "", "error: input is not a valid pattern tree: " ++ e.message ++ "\n"⟩) ∧
    ∀ node seed, Node.ofText text = .ok node → o.seed = some seed →
      r.stdout = String.join ((given (o.outcomes seed node)).map (· ++ "\n")) ∧
      (r.status = 0 ∧ r.stderr = "" ↔ ∀ x ∈ o.outcomes seed node, x.result.isOk = true) ∧
      (∀ e, firstError? (o.outcomes seed node) = some e →
        r.status = 1 ∧ r.stderr = "error: could not generate a sample: " ++ e.message ++ "\n") ∧
      ∀ args' o' entropy', Command.parse args' = .ok (.sample o') →
        o' = { o with count := o'.count } → o.count ≤ o'.count →
          let r' := respond args' inputs entropy'
          (∃ more, r'.stdout = r.stdout ++ more) ∧ (r.status ≠ 0 → r' = r) := by
  intro r
  refine ⟨fun e he => ?_, fun node seed hnode hseed => ?_⟩
  · have hr : r = _ := respond_eq hargs htext entropy
    rw [hr, he]
    exact Response.failure_notAPattern "" e
  have hr : r = report (o.outcomes seed node) := by
    rw [← Option.getD_some (a := seed) (b := entropy), ← hseed]
    exact respond_eq_report hargs htext hnode entropy
  rw [hr]
  refine ⟨report_stdout _, ?_, fun e he => ?_, fun args' o' entropy' hargs' hsame hle => ?_⟩
  · rw [← firstError?_eq_none_iff, ← report_status_eq_zero_iff, and_iff_left_iff_imp]
    intro hstatus
    rw [report_none (report_status_eq_zero_iff.mp hstatus)]
  · rw [report_some he]
    exact ⟨rfl, rfl⟩
  have hseed' : o'.seed = some seed := by rw [hsame, hseed]
  have htext' : inputs.named o' = .ok text := by rw [hsame, ← htext, Inputs.named, Inputs.named]
  -- Both counts take their samples from one sequence of outcomes.
  obtain ⟨later, hlater⟩ := Options.outcomes_isPrefix hsame hle seed node
  rw [respond_eq_report hargs' htext' hnode entropy', hseed', Option.getD_some, ← hlater]
  exact ⟨report_append_stdout _ later, fun hstatus => report_append_of_status_ne_zero hstatus later⟩

/-- What has a value is the value. -/
theorem eq_ok_of_toOption {ε α : Type} {x : Except ε α} {a : α} (h : x.toOption = some a) :
    x = .ok a := by
  cases x with
  | error e => cases h
  | ok b => exact congrArg _ (Option.some.inj h)

/-- A text of a digit or of nothing at all, which fails. -/
def digitOrNothing : String :=
  "\x7b\"type\":\"alternate\",\"left\":\x7b\"type\":\"digit\"\x7d," ++
    "\"right\":\x7b\"type\":\"charset\",\"body\":[]\x7d\x7d"

/-- Two samples of a text on standard input start with the line of one, and if that one fails, so
they do. -/
theorem respond_stream_digitOrNothing :
    let inputs : Inputs := ⟨.error, .ok digitOrNothing⟩
    let r := respond ["-n", "1", "--seed", "6", "--max-depth", "2", "-"] inputs 0
    let r' := respond ["--seed", "6", "-n", "2", "--max-depth", "2"] inputs 1
    (∃ more, r'.stdout = r.stdout ++ more) ∧ (r.status ≠ 0 → r' = r) := by
  intro inputs r r'
  let o : Options := { count := 1, seed := some 6, maxDepth := some 2 }
  have hwritable : o.IsWritable := ⟨by decide, by decide, nofun⟩
  have hwritten : o.arguments = ["-n", "1", "--seed", "6", "--max-depth", "2", "-"] := by decide
  have hargs : Command.parse o.arguments = .ok (.sample o) := Options.parse_arguments hwritable
  rw [hwritten] at hargs
  have hnode : Node.ofText digitOrNothing =
      .ok (.alternate { } (.token { } .digit) (.charset { } [] false)) :=
    eq_ok_of_toOption (by decide +kernel)
  obtain ⟨-, hstream⟩ := @respond_stream _ o hargs inputs _ rfl 0
  obtain ⟨-, -, -, hmore⟩ := hstream _ 6 hnode rfl
  exact hmore _ { o with count := 2 } 1 rfl rfl (by decide)

end CommandLine

end PatternSampler
