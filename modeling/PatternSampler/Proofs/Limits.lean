import PatternSampler.Proofs.Levels

/-!
# What a higher limit changes

Of two computations the first is cut short if both go through the same events and ask for the same
choices, until the first gives up because a node is too deep. `Sampler.CutShort` is this relation.
It is kept when computations are put together, so a walk through a pattern is cut short by a lower
limit (`cutShort_emit`), wherever the limit is met. A run that does not meet the lower limit does
not depend on it, and one that does is the beginning of the run under the higher one
(`run_higher_limit`).
-/

namespace PatternSampler

namespace Sampler

/-- Of two samplers the first is the second, except that it may give up because a node is too
deep. -/
inductive CutShort {α : Type} : Sampler α → Sampler α → Prop where
  /-- The same value is given. -/
  | done (a : α) : CutShort (done a) (done a)
  /-- Both fail with the same error. -/
  | fail (e : SampleError) : CutShort (fail e) (fail e)
  /-- The first gives up where the second goes on. -/
  | tooDeep (offset : UInt64) (limit : Nat) (p : Sampler α) :
      CutShort (fail (.tooDeep offset limit)) p
  /-- The same event happens. -/
  | note {e : Event} {next next' : Unit → Sampler α} (h : CutShort (next ()) (next' ())) :
      CutShort (note e next) (note e next')
  /-- The same choice is asked for. -/
  | ask {q : Query} {next next' : q.Answer → Sampler α} (h : ∀ a, CutShort (next a) (next' a)) :
      CutShort (ask q next) (ask q next')

variable {α β σ : Type}

/-- A sampler is cut short nowhere by itself. -/
theorem CutShort.refl (p : Sampler α) : CutShort p p := by
  induction p with
  | done a => exact .done a
  | fail e => exact .fail e
  | note e next ih => exact .note (ih ())
  | ask q next ih => exact .ask ih

/-- Two samplers in a row are cut short if each is. -/
theorem CutShort.bind {p p' : Sampler α} {f f' : α → Sampler β} (hp : CutShort p p')
    (hf : ∀ a, CutShort (f a) (f' a)) : CutShort (p >>= f) (p' >>= f') := by
  induction hp with
  | done a => exact hf a
  | fail e => exact .fail e
  | tooDeep offset limit p => exact .tooDeep offset limit _
  | note _ ih => exact .note ih
  | ask _ ih => exact .ask ih

/-- A sampler is followed by one that is cut short. -/
theorem CutShort.bind_right (p : Sampler α) {f f' : α → Sampler β}
    (hf : ∀ a, CutShort (f a) (f' a)) : CutShort (p >>= f) (p >>= f') :=
  (CutShort.refl p).bind hf

/-- A step that is cut short is so when it is taken a number of times. -/
theorem CutShort.iterate {step step' : α → Sampler α} (h : ∀ a, CutShort (step a) (step' a))
    (n : Nat) (a : α) : CutShort (Sampler.iterate step n a) (Sampler.iterate step' n a) := by
  induction n generalizing a with
  | zero => exact .done a
  | succ n ih => exact (h a).bind ih

/-- An end of a range is cut short if writing it is. -/
theorem CutShort.endpoint (offset : UInt64) {write write' : Page → Sampler Page}
    (h : ∀ p, CutShort (write p) (write' p)) (captures : Captures Path) :
    CutShort (Sampler.endpoint offset write captures) (Sampler.endpoint offset write' captures) :=
  (h _).bind fun _ => .refl _

/-- The ends of a range are cut short if each is. -/
theorem CutShort.ends (offset : UInt64)
    {first first' last last' : Captures Path → Sampler (Char × Captures Path)}
    (hfirst : ∀ c, CutShort (first c) (first' c)) (hlast : ∀ c, CutShort (last c) (last' c))
    (captures : Captures Path) :
    CutShort (Sampler.ends offset first last captures)
      (Sampler.ends offset first' last' captures) :=
  (hfirst _).bind fun _ => (hlast _).bind fun _ => .refl _

/-- A run that is cut short by nothing is the other run. -/
theorem CutShort.run_eq {p p' : Sampler α} (h : CutShort p p') {src : Source σ} {s : σ}
    (hdeep : ¬(p.run src s).IsTooDeep) : p'.run src s = p.run src s := by
  induction h generalizing s with
  | done a => rfl
  | fail e => rfl
  | tooDeep offset limit p => exact absurd ⟨offset, limit, rfl⟩ hdeep
  | note _ ih =>
    unfold Outcome.IsTooDeep at hdeep
    rw [run_note] at hdeep
    rw [run_note, run_note, ih hdeep]
  | ask _ ih =>
    unfold Outcome.IsTooDeep at hdeep
    rw [run_ask] at hdeep
    rw [run_ask, run_ask]
    dsimp only
    rw [ih _ hdeep]

/-- A run that is cut short goes through the first of the steps of the other run. -/
theorem CutShort.steps_prefix {p p' : Sampler α} (h : CutShort p p') (src : Source σ) (s : σ) :
    (p.run src s).steps <+: (p'.run src s).steps := by
  induction h generalizing s with
  | done a => exact List.prefix_refl _
  | fail e => exact List.prefix_refl _
  | tooDeep offset limit p => exact List.nil_prefix
  | note _ ih =>
    rw [run_note, run_note]
    exact List.prefix_cons_inj _ |>.mpr (ih s)
  | ask _ ih =>
    rw [run_ask, run_ask]
    exact List.prefix_cons_inj _ |>.mpr (ih _ _)

end Sampler

section Walk

open Sampler

variable {cfg : Config} {limit : Nat}

mutual

/-- A node is cut short by a lower limit. -/
theorem cutShort_emit (hle : cfg.maxDepth ≤ limit) (node : Node) (path : Path) (depth : Nat)
    (p : Page) :
    CutShort (emit cfg node path depth p)
      (emit { cfg with maxDepth := limit } node path depth p) := by
  -- Where the lower limit is met the first gives up. Where it is not, the higher one is not either.
  by_cases hdepth : cfg.maxDepth ≤ depth
  · rw [emit_eq_tooDeep hdepth]
    exact .tooDeep _ _ _
  have hdepth' : ¬limit ≤ depth := by omega
  unfold emit
  rw [if_neg hdepth, if_neg hdepth']
  refine .note ?_
  match node with
  | .alternate _ l r =>
    refine .bind_right _ fun b => ?_
    cases b with
    | true => exact cutShort_emit hle l _ _ p
    | false => exact cutShort_emit hle r _ _ p
  | .sequence _ body => exact cutShort_emitAll hle body path 0 _ p
  | .group m .capturing body =>
    refine .bind_right _ fun r => ?_
    exact (cutShort_emit hle body _ _ _).bind fun _ => .refl _
  | .group _ .plain body | .group _ .ahead body => exact cutShort_emit hle body _ _ p
  | .group _ .notAhead _ => exact .refl _
  | .quantified _ body q =>
    -- The counts that a quantifier allows do not depend on the limit.
    have hcount : count { cfg with maxDepth := limit } q = count cfg q := rfl
    dsimp only
    rw [hcount]
    exact .bind_right _ fun n => .iterate (cutShort_emit hle body _ _) n p
  | .charset m body true => exact (cutShort_strike hle body path 0 _ _ _).bind fun _ => .refl _
  | .charset m body false =>
    refine .bind_right _ fun i? => ?_
    cases i? with
    | none => exact .refl _
    | some i => exact cutShort_emitNth hle m.offset body path 0 i _ p
  | .range m first last =>
    have hfirst := CutShort.endpoint first.offset (cutShort_emit hle first (0 :: path) (depth + 1))
    have hlast := CutShort.endpoint last.offset (cutShort_emit hle last (1 :: path) (depth + 1))
    exact (CutShort.ends m.offset hfirst hlast p.captures).bind fun _ => .refl _
  | .quantifier .. | .literal .. | .numeric .. | .backReference .. | .control .. | .token ..
  | .unknown .. => exact .refl _

/-- Nodes in a row are cut short by a lower limit. -/
theorem cutShort_emitAll (hle : cfg.maxDepth ≤ limit) (nodes : List Node) (path : Path)
    (place depth : Nat) (p : Page) :
    CutShort (emitAll cfg nodes path place depth p)
      (emitAll { cfg with maxDepth := limit } nodes path place depth p) := by
  match nodes with
  | [] => exact .refl _
  | n :: ns =>
    exact (cutShort_emit hle n _ depth p).bind fun q => cutShort_emitAll hle ns path _ depth q

/-- The chosen one of some nodes in a row is cut short by a lower limit. -/
theorem cutShort_emitNth (hle : cfg.maxDepth ≤ limit) (offset : UInt64) (nodes : List Node)
    (path : Path) (place i depth : Nat) (p : Page) :
    CutShort (emitNth cfg offset nodes path place i depth p)
      (emitNth { cfg with maxDepth := limit } offset nodes path place i depth p) := by
  match nodes, i with
  | [], _ => exact .refl _
  | n :: _, 0 => exact cutShort_emit hle n _ depth p
  | _ :: ns, i + 1 => exact cutShort_emitNth hle offset ns path _ i depth p

/-- The entries of an inverted set are cut short by a lower limit, in the ends of a range. -/
theorem cutShort_strike (hle : cfg.maxDepth ≤ limit) (entries : List Node) (path : Path)
    (place depth : Nat) (pool : List Char) (captures : Captures Path) :
    CutShort (strike cfg entries path place depth pool captures)
      (strike { cfg with maxDepth := limit } entries path place depth pool captures) := by
  match entries with
  | [] => exact .refl _
  | .literal .. :: rest => exact cutShort_strike hle rest path _ depth _ captures
  | .range m first last :: rest =>
    have hfirst := CutShort.endpoint first.offset
      (cutShort_emit hle first (0 :: place :: path) depth)
    have hlast := CutShort.endpoint last.offset (cutShort_emit hle last (1 :: place :: path) depth)
    refine .note ?_
    exact (CutShort.ends m.offset hfirst hlast captures).bind fun r =>
      cutShort_strike hle rest path _ depth _ r.2.2
  -- Any other entry is not evaluated.
  | .alternate .. :: rest | .sequence .. :: rest | .group .. :: rest | .quantified .. :: rest
  | .quantifier .. :: rest | .charset .. :: rest | .numeric .. :: rest | .backReference .. :: rest
  | .control .. :: rest | .token .. :: rest | .unknown .. :: rest =>
    exact cutShort_strike hle rest path _ depth _ captures

end

/-- A sample is cut short by a lower limit. -/
theorem cutShort_sample (hle : cfg.maxDepth ≤ limit) (node : Node) :
    CutShort (sample cfg node) (sample { cfg with maxDepth := limit } node) :=
  (cutShort_emit hle node [] 0 _).bind fun _ => .refl _

end Walk

/-- What a higher limit changes. A run that does not end because a node is too deep is the same
under every higher limit: it makes the same calls with the same answers, gives the same text or the
same error, and leaves the source in the same state. A run that ends so has made the first of the
calls that are made under the higher limit. No run ends so if the pattern is no higher than the
limit. -/
theorem run_higher_limit {σ : Type} (src : Source σ) (cfg : Config) {limit : Nat}
    (hle : cfg.maxDepth ≤ limit) (root : Node) (s : σ) :
    let o := (sample cfg root).run src s
    let o' := (sample { cfg with maxDepth := limit } root).run src s
    (¬o.IsTooDeep → o' = o) ∧ (o.IsTooDeep → o.calls <+: o'.calls ∧ o.steps <+: o'.steps) ∧
      (root.height ≤ cfg.maxDepth → ¬o.IsTooDeep) := by
  intro o o'
  have hcut := cutShort_sample hle root
  refine ⟨hcut.run_eq, fun _ => ?_, fun hheight => not_isTooDeep_of_height_le src hheight s⟩
  have hsteps : o.steps <+: o'.steps := hcut.steps_prefix src s
  exact ⟨hsteps.filterMap _, hsteps⟩

/-- A digit, and then a letter in two groups. -/
def Node.digitAndGroups : Node :=
  .ofSequence [.token { } .digit, capture (.withOffset (capture (ofChar 'a')) 7)]

/-- Under a limit of two, the inner group is too deep when the digit has been chosen. Under a limit
of four nothing is. -/
theorem run_higher_limit_digitAndGroups :
    let o := (sample { maxDepth := 2 } .digitAndGroups).run Source.highest ()
    let o' := (sample { maxDepth := 4 } .digitAndGroups).run Source.highest ()
    2 ≤ 4 ∧ o.result = .error (.tooDeep 7 2) ∧ o'.result = .ok "9a" ∧ o.calls.length = 1 ∧
      o.calls <+: o'.calls ∧ ¬o'.IsTooDeep ∧
      (sample { maxDepth := 9 } .digitAndGroups).run Source.highest () = o' := by
  intro o o'
  have hdeep : o.IsTooDeep := ⟨7, 2, rfl⟩
  have hheight : Node.digitAndGroups.height ≤ 4 := by decide
  have hlow : 2 ≤ 4 := by decide
  have hhigh : 4 ≤ 9 := by decide
  obtain ⟨-, hstart, -⟩ :=
    run_higher_limit Source.highest { maxDepth := 2 } hlow .digitAndGroups ()
  obtain ⟨hsame, -, hnotDeep⟩ :=
    run_higher_limit Source.highest { maxDepth := 4 } hhigh .digitAndGroups ()
  exact ⟨hlow, rfl, rfl, rfl, (hstart hdeep).1, hnotDeep hheight, hsame (hnotDeep hheight)⟩

end PatternSampler
