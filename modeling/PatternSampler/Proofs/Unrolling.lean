import PatternSampler.Proofs.BottomUp
import PatternSampler.Proofs.InStep
import PatternSampler.Proofs.Repetitions

/-!
# Repetitions written out

A repetition evaluates one body a number of times. Written out, it is a sequence with as many copies
of the body, each of which is a node of its own. Only groups are told apart by their places, so
where the body has none, it makes no difference which of the two is evaluated, once the count has
been chosen (`writes_unrolled`). This holds for every limit on the depth, and for failures, too.

A body without groups leaves what has been captured as it is. So if it gives the same text whatever
the source answers, each round adds this text once (`gives_iterate`).
-/

namespace PatternSampler

open Sampler

variable {σ : Type}

/-- Nothing has been captured on either side since some record was made. -/
def Captures.Link.still (c : Captures Path) : Captures.Link where
  Holds a b := a = c ∧ b = c
  kept h _ := by rw [h.1, h.2]

/-- There are no capturing groups in a tree. -/
def Node.Ungrouped (n : Node) : Prop := n.groupPlaces [] = []

/-- A node without groups is written in step at any two places, and captures nothing. -/
theorem Node.Ungrouped.writes {n : Node} (h : n.Ungrouped) (about : SampleError → SampleError)
    (cfg : Config) (path path' : Path) (depth : Nat) (c : Captures Path) :
    (Captures.Link.still c).Writes about (emit cfg n path depth) (emit cfg n path' depth) := by
  refine writes_emit n (.inl rfl) ?_
  rw [(n.groupPlaces_eq_nil_iff path).mpr h, (n.groupPlaces_eq_nil_iff path').mpr h]
  exact .nil

/-- Rounds of a body without groups go in step with copies of the body in a row. -/
theorem Node.Ungrouped.writes_replicate {body : Node} (h : body.Ungrouped)
    (about : SampleError → SampleError) (cfg : Config) (path path' : Path) (depth : Nat)
    (c : Captures Path) (n place : Nat) :
    (Captures.Link.still c).Writes about (iterate (emit cfg body path depth) n)
      (emitAll cfg (List.replicate n body) path' place depth) := by
  induction n generalizing place with
  | zero => exact fun _ _ hp => .done hp
  | succ n ih =>
    intro p p' hp
    exact (h.writes about cfg path (place :: path') depth c p p' hp).bind (ih (place + 1))

/-- A run of a node without groups captures nothing. -/
theorem Node.Ungrouped.captures_eq {n : Node} (h : n.Ungrouped) {src : Source σ} {cfg : Config}
    {path : Path} {depth : Nat} {p q : Page} {s : σ}
    (hq : ((emit cfg n path depth p).run src s).result = .ok q) : q.captures = p.captures := by
  have hwrites := h.writes id cfg path path depth p.captures p p ⟨rfl, rfl, rfl⟩
  obtain ⟨-, -, hend⟩ := hwrites.run src s
  rw [hq] at hend
  cases hend with
  | ok hpages => exact hpages.captures.1

/-- Results that are related while nothing is captured, with the same errors, are the same. -/
theorem Sampler.SameEnd.eq_of_still {c : Captures Path} {r r' : Except SampleError Page}
    (h : SameEnd id (Captures.Link.still c).Pages r r') : r = r' := by
  cases h with
  | error h => exact congrArg _ h
  | @ok p p' h =>
    obtain ⟨written, captures⟩ := p
    obtain ⟨written', captures'⟩ := p'
    have hwritten : written = written' := h.written
    have hcaptures : captures = captures' := h.captures.1.trans h.captures.2.symm
    rw [hwritten, hcaptures]

/-- A repetition of a body without groups runs like the copies of the body in a row, after the
count has been chosen. -/
theorem run_unrolled (src : Source σ) (cfg : Config) (mark mark' : Mark) {body quantifier : Node}
    (hbody : body.Ungrouped) (path : Path) {depth : Nat} (hdepth : depth < cfg.maxDepth) (p : Page)
    (s : σ) {n : Nat} (hn : ((count cfg quantifier).run src s).result = .ok n) :
    let o := (emit cfg (.quantified mark body quantifier) path depth p).run src s
    let c := (count cfg quantifier).run src s
    let u := (emit cfg (.sequence mark' (List.replicate n body)) path depth p).run src c.state
    o.result = u.result ∧ o.calls = c.calls ++ u.calls ∧ o.state = u.state := by
  intro o c u
  have hwrites := hbody.writes_replicate id cfg (0 :: path) path (depth + 1) p.captures n 0 p p
    ⟨rfl, rfl, rfl⟩
  obtain ⟨hcalls, hstate, hend⟩ := hwrites.run src c.state
  have ho : o = (emit cfg (.quantified mark body quantifier) path depth p).run src s := rfl
  have hu : u = (emit cfg (.sequence mark' (List.replicate n body)) path depth p).run src c.state :=
    rfl
  rw [emit_quantified mark body quantifier path hdepth, run_note, run_bind, Outcome.andThen,
    hn] at ho
  rw [emit_sequence mark' _ path hdepth, run_note] at hu
  rw [ho, hu]
  refine ⟨hend.eq_of_still, ?_, hstate⟩
  calc
    _ = c.calls ++ ((iterate (emit cfg body (0 :: path) (depth + 1)) n p).run src c.state).calls :=
      List.filterMap_append
    _ = _ := congrArg _ hcalls

/-- Whatever the source answers, a node gives the same text from a record of captured texts on. -/
def Node.AlwaysGives (n : Node) (src : Source σ) (cfg : Config) (path : Path) (depth : Nat)
    (captures : Captures Path) (text : String) : Prop :=
  ∀ s, ((emit cfg n path depth { captures }).run src s).result.map Page.text = .ok text

namespace Node.AlwaysGives

variable {n : Node} {src : Source σ} {cfg : Config} {path : Path} {depth : Nat} {p : Page}
  {text : String}

/-- A node without groups that always gives the same text adds this text to what has been
written. -/
theorem result_run (h : n.AlwaysGives src cfg path depth p.captures text) (hn : n.Ungrouped)
    (s : σ) : ((emit cfg n path depth p).run src s).result = .ok (p.append text) := by
  -- What is added to a page is what is written on an empty one with the same record.
  have hempty : { p with written := #[] } = ({ captures := p.captures } : Page) := rfl
  rw [(run_emit src cfg n path depth p s).2.1, hempty, Outcome.map]
  have htext := h s
  cases hq : ((emit cfg n path depth { captures := p.captures }).run src s).result with
  | error e =>
    rw [hq] at htext
    cases htext
  | ok q =>
    rw [hq] at htext
    have hcaptures := hn.captures_eq hq
    have hwritten : q.written = text.toList.toArray := by
      rw [← Except.ok.inj htext, Page.text, String.toList_ofList, Array.toArray_toList]
    refine congrArg Except.ok ?_
    rw [Page.after, Page.append, hwritten, hcaptures]

/-- Rounds of it add the text as often. -/
theorem result_run_iterate (h : n.AlwaysGives src cfg path depth p.captures text)
    (hn : n.Ungrouped) (k : Nat) (s : σ) :
    ((iterate (emit cfg n path depth) k p).run src s).result =
      .ok (p.append (String.join (List.replicate k text))) := by
  induction k generalizing p s with
  | zero =>
    rw [List.replicate_zero, String.join_nil, Page.append_eq_extend, Page.extend_empty]
    rfl
  | succ k ih =>
    have hfirst := h.result_run hn s
    have hrest := ih (p := p.append text) h ((emit cfg n path depth p).run src s).state
    rw [iterate, run_bind, Outcome.andThen, hfirst]
    dsimp only
    rw [hrest, List.replicate_succ, String.join_cons, Page.append_eq_extend,
      Page.append_eq_extend, Page.extend_extend, Page.append_eq_extend]
    rfl

end Node.AlwaysGives

/-- A source in bounds has to answer with the one count that there is between equal bounds. -/
theorem result_run_count_exact {src : Source σ} (hsrc : src.KeepsIntegers) (cfg : Config)
    (mark : Mark) {bounds : Bounds} (isGreedy : Bool) {n : Nat} (hmin : bounds.min.toInt = n)
    (hmax : bounds.max = some bounds.min) (hn : n ≤ 0xFFFFFFFF) (s : σ) :
    ((count cfg (.quantifier mark bounds isGreedy)).run src s).result = .ok n := by
  have hleast : max bounds.min.toInt 0 = n := by omega
  have hcounts := (countsWithin_run_count hsrc cfg mark isGreedy hmax s).1
  rw [hleast, hmin] at hcounts
  obtain ⟨-, -, k, -, -, -, hresult, hle, hge⟩ := hcounts (by omega)
  have hk : k.toNat = n := by omega
  rw [hresult, hk]

/-- Let the body of a repetition have no capturing groups. If a count is chosen, the repetition
goes on exactly as a sequence of as many copies of the body does at the same depth, from the same
page and from the state in which the choice has left the source: it gives the same page or fails
with the same error, after the same calls, and leaves the source in the same state. If the
repetition itself is too deep, so is the sequence.

Between equal bounds the count is the bound. So a body that always gives the same text gives it so
many times, and a repetition of no rounds gives nothing, whatever its body is. -/
theorem run_emit_unrolled (src : Source σ) (cfg : Config) (mark mark' : Mark)
    (body quantifier : Node) (path : Path) (depth : Nat) (p : Page) (s : σ) :
    let o := (emit cfg (.quantified mark body quantifier) path depth p).run src s
    let c := (count cfg quantifier).run src s
    (body.Ungrouped → ∀ n, c.result = .ok n →
      let u := (emit cfg (.sequence mark' (List.replicate n body)) path depth p).run src c.state
      (depth < cfg.maxDepth →
        o.result = u.result ∧ o.calls = c.calls ++ u.calls ∧ o.state = u.state) ∧
      (cfg.maxDepth ≤ depth →
        o = ⟨.error (.tooDeep mark.offset cfg.maxDepth), [], s⟩ ∧
          u = ⟨.error (.tooDeep mark'.offset cfg.maxDepth), [], c.state⟩)) ∧
    (∀ quantifierMark bounds isGreedy (n : Nat),
      quantifier = .quantifier quantifierMark bounds isGreedy → bounds.min.toInt = n →
      bounds.max = some bounds.min → n ≤ 0xFFFFFFFF → src.KeepsIntegers →
      depth < cfg.maxDepth →
        c.result = .ok n ∧ (n = 0 → o.result = .ok p) ∧
        (body.Ungrouped → ∀ text,
          body.AlwaysGives src cfg (0 :: path) (depth + 1) p.captures text →
            o.result = .ok (p.append (String.join (List.replicate n text))))) := by
  intro o c
  refine ⟨fun hbody n hn => ⟨fun hdepth => ?_, fun hdepth => ?_⟩, ?_⟩
  · exact run_unrolled src cfg mark mark' hbody path hdepth p s hn
  · have ho : o = (emit cfg (.quantified mark body quantifier) path depth p).run src s := rfl
    rw [emit_eq_tooDeep hdepth] at ho
    rw [emit_eq_tooDeep hdepth]
    exact ⟨ho, rfl⟩
  · rintro quantifierMark bounds isGreedy n rfl hmin hmax hle hsrc hdepth
    have hn : c.result = .ok n := result_run_count_exact hsrc cfg quantifierMark isGreedy hmin hmax
      hle s
    have ho : o.result =
        ((iterate (emit cfg body (0 :: path) (depth + 1)) n p).run src c.state).result := by
      have hrun : o = (emit cfg _ path depth p).run src s := rfl
      rw [emit_quantified mark body _ path hdepth, run_note, run_bind, Outcome.andThen, hn] at hrun
      rw [hrun]
    rw [ho]
    refine ⟨hn, ?_, fun hbody text htext => htext.result_run_iterate hbody n c.state⟩
    rintro rfl
    rfl

/-- A group that has been captured before and a dash, twice. -/
theorem run_emit_unrolled_recalled :
    let body := Node.ofSequence [.backTo 1, .ofChar '-']
    let p : Page := { written := #['x'], captures := { seen := [[7]], texts := [(1, "ab")] } }
    let o := (emit { } (.repeated body (.times 2 (some 2))) [0] 1 p).run Source.lowest ()
    let u := (emit { } (.sequence { } [body, body]) [0] 1 p).run Source.lowest ()
    o.result = u.result ∧ o.calls = ⟨.integer 2 2, 2⟩ :: u.calls ∧
      o.result = .ok (p.append "ab-ab-") := by
  intro body p o u
  have hbody : body.Ungrouped := rfl
  have hgives : body.AlwaysGives Source.lowest { } [0, 0] 2
      { seen := [[7]], texts := [(1, "ab")] } "ab-" := fun _ => rfl
  obtain ⟨hunrolled, hexact⟩ := run_emit_unrolled Source.lowest { }
    { text := body.text ++ "\x7b2\x7d" } { } body (.times 2 (some 2)) [0] 1 p ()
  obtain ⟨hcount, -, htexts⟩ := hexact _ { min := 2, max := some 2 } true 2 rfl (by decide) rfl
    (by decide) Source.lowest_inBounds.keepsIntegers (by decide)
  obtain ⟨hresult, hcalls, -⟩ := (hunrolled hbody 2 hcount).1 (by decide)
  have hchosen : ((count { } (.times 2 (some 2))).run Source.lowest ()).calls =
      [⟨.integer 2 2, 2⟩] := rfl
  have htext : String.join (List.replicate 2 "ab-") = "ab-ab-" := by decide
  have htwice := htexts hbody "ab-" hgives
  rw [hchosen] at hcalls
  rw [htext] at htwice
  exact ⟨hresult, hcalls, htwice⟩

end PatternSampler
