import PatternSampler.Proofs.Failures
import PatternSampler.Proofs.Spans

/-!
# How often the body of a repetition is evaluated

A quantifier asks for a count between its bounds, as integers without a width, and refuses bounds
that are out of order or whose upper one is no count (`Outcome.CountsWithin`). Without an upper
bound it asks first by how much the lower one may be exceeded. Which of the two ends of that choice
is given first does not matter for anything that is sampled (`emit_swapped`).

The evaluations of the body one after the other are its `rounds`. As long as none of them fails
there are as many as the count says (`run_iterate`).
-/

namespace PatternSampler

variable {σ : Type}

/-- After some earlier calls a run asks for a count within bounds, and gives the answer. If no count
is within these bounds or the upper one is too large, the run fails instead, and reports the lower
bound and the given upper one. -/
def Outcome.CountsWithin (o : Outcome σ Nat) (earlier : List Call) (offset : UInt64)
    (least most reported : Int) : Prop :=
  (least ≤ most ∧ most ≤ 0xFFFFFFFF →
    ∃ a b n : UInt32, (a.toNat : Int) = least ∧ (b.toNat : Int) = most ∧
      o.calls = earlier ++ [⟨.integer a b, n⟩] ∧ o.result = .ok n.toNat ∧
      least ≤ n.toNat ∧ n.toNat ≤ most) ∧
  (¬(least ≤ most ∧ most ≤ 0xFFFFFFFF) →
    o.calls = earlier ∧ o.result = .error (.invalidBounds offset least reported))

/-- A call and an event before a choice of a count come before its own call. -/
theorem Outcome.CountsWithin.after_call {o : Outcome σ Nat} {offset : UInt64}
    {least most reported : Int} (h : o.CountsWithin [] offset least most reported) (c : Call)
    (e : Event) :
    (⟨o.result, [.call c] ++ .event e :: o.steps, o.state⟩ : Outcome σ Nat).CountsWithin [c] offset
      least most reported := by
  refine ⟨fun hbounds => ?_, fun hbounds => ?_⟩
  · obtain ⟨a, b, n, ha, hb, hcalls, hresult, hn⟩ := h.1 hbounds
    exact ⟨a, b, n, ha, hb, congrArg (c :: ·) hcalls, hresult, hn⟩
  · obtain ⟨hcalls, hresult⟩ := h.2 hbounds
    exact ⟨congrArg (c :: ·) hcalls, hresult⟩

namespace Sampler

/-- A choice of a count within bounds, the lower of which is not negative. -/
theorem countsWithin_run {src : Source σ} (hsrc : src.KeepsIntegers) (offset : UInt64)
    {least : Int} (hleast : 0 ≤ least) (most : Int) (s : σ) :
    ((countWithin offset least most).run src s).CountsWithin [] offset least most most := by
  unfold countWithin
  refine ⟨fun hbounds => ?_, fun hbounds => ?_⟩
  · -- Both bounds fit into a word, which keeps their order.
    have hcount : least ≤ most ∧ most ≤ maxCount := hbounds
    have ha : (UInt32.ofNat least.toNat).toNat = least.toNat := toNat_ofNat_word (by omega)
    have hb : (UInt32.ofNat most.toNat).toNat = most.toNat := toNat_ofNat_word (by omega)
    have hle : UInt32.ofNat least.toNat ≤ UInt32.ofNat most.toNat := by
      rw [UInt32.le_iff_toNat_le]
      omega
    have hanswer := hsrc (.integer (UInt32.ofNat least.toNat) (UInt32.ofNat most.toNat)) s hle
    rw [if_pos hcount, bind_pure_comp, run_map, run_integer]
    refine ⟨_, _, _, ?_, ?_, rfl, rfl, ?_, ?_⟩
    all_goals
      simp only [UInt32.le_iff_toNat_le] at hanswer
      omega
  · have hcount : ¬(least ≤ most ∧ most ≤ maxCount) := hbounds
    rw [if_neg hcount]
    exact ⟨rfl, rfl⟩

/-- A choice of a count that a quantifier with an upper bound allows. -/
theorem countsWithin_run_count {src : Source σ} (hsrc : src.KeepsIntegers) (cfg : Config)
    (mark : Mark) {bounds : Bounds} (isGreedy : Bool) {most : Int64} (hmax : bounds.max = some most)
    (s : σ) :
    ((count cfg (.quantifier mark bounds isGreedy)).run src s).CountsWithin [] mark.offset
      (max bounds.min.toInt 0) most.toInt most.toInt := by
  rw [count, hmax]
  exact countsWithin_run hsrc _ (Int.le_max_right _ _) _ s

/-- A choice of a count that a quantifier without an upper bound allows: the upper bound is asked
for first. -/
theorem countsWithin_run_count_extra {src : Source σ} (hsrc : src.KeepsIntegers) (cfg : Config)
    (mark : Mark) {bounds : Bounds} (isGreedy : Bool) (hmax : bounds.max = none) (s : σ) :
    let least := max bounds.min.toInt 0
    let q := Query.integer cfg.leastExtra cfg.mostExtra
    let extra := (src.answer q s).1
    ((count cfg (.quantifier mark bounds isGreedy)).run src s).CountsWithin [⟨q, extra⟩] mark.offset
      least (least + extra.toNat) (min (least + extra.toNat) maxBound) := by
  intro least q extra
  have hleast : 0 ≤ least := Int.le_max_right _ _
  have hword : extra.toNat < 4294967296 := extra.toNat_lt
  -- What follows the first call is a choice within bounds, unless the upper one cannot be written.
  have hrun : (count cfg (.quantifier mark bounds isGreedy)).run src s =
      (⟨.ok extra, [.call ⟨q, extra⟩], (src.answer q s).2⟩ : Outcome σ UInt32).andThen
        fun extra s =>
          (if maxBound < least + extra.toNat then fail (.invalidBounds mark.offset least maxBound)
            else note (.capped mark.offset (least + extra.toNat)) fun _ =>
              countWithin mark.offset least (least + extra.toNat)).run src s := by
    rw [count, hmax]
    dsimp only
    rw [run_bind, run_integer]
    rfl
  rw [hrun, Outcome.andThen]
  dsimp only
  split
  · next hlarge =>
    have hmin : min (least + extra.toNat) maxBound = maxBound := Int.min_eq_right (by omega)
    rw [hmin]
    refine ⟨fun hbounds => ?_, fun _ => ⟨rfl, rfl⟩⟩
    simp only [maxBound] at hlarge
    omega
  · next hsmall =>
    have hmin : min (least + extra.toNat) maxBound = least + extra.toNat :=
      Int.min_eq_left (by omega)
    rw [hmin, run_note]
    exact (countsWithin_run hsrc mark.offset hleast (least + extra.toNat) _).after_call ⟨q, extra⟩ _

end Sampler

/-- The same limits with the two ends of the extra repetitions given the other way round. -/
def Config.swapped (cfg : Config) : Config :=
  { cfg with extraFrom := cfg.extraTo, extraTo := cfg.extraFrom }

/-- The fewest extra repetitions do not depend on which end is given first. -/
theorem Config.leastExtra_swapped (cfg : Config) : cfg.swapped.leastExtra = cfg.leastExtra := by
  rw [← UInt32.toNat_inj, toNat_leastExtra, toNat_leastExtra]
  exact Nat.min_comm _ _

/-- The most extra repetitions do not depend on which end is given first. -/
theorem Config.mostExtra_swapped (cfg : Config) : cfg.swapped.mostExtra = cfg.mostExtra := by
  rw [← UInt32.toNat_inj, toNat_mostExtra, toNat_mostExtra]
  exact Nat.max_comm _ _

/-- A count is chosen in the same way whichever end of the extra repetitions is given first. -/
theorem count_swapped (cfg : Config) (quantifier : Node) :
    Sampler.count cfg.swapped quantifier = Sampler.count cfg quantifier := by
  unfold Sampler.count
  rw [cfg.leastExtra_swapped, cfg.mostExtra_swapped]

mutual

/-- A node adds the same whichever end of the extra repetitions is given first. -/
theorem emit_swapped (cfg : Config) (node : Node) (path : Path) (depth : Nat) :
    emit cfg.swapped node path depth = emit cfg node path depth := by
  funext p
  unfold emit
  -- The greatest depth is the same, and only a repetition asks for extra ones.
  refine ite_congr rfl (fun _ => rfl) fun _ => congrArg _ (funext fun _ => ?_)
  match node with
  | .alternate _ l r =>
    dsimp only
    rw [emit_swapped cfg l, emit_swapped cfg r]
  | .sequence _ body => exact congrFun (emitAll_swapped cfg body path 0 (depth + 1)) p
  | .group _ .capturing body =>
    dsimp only
    rw [emit_swapped cfg body]
  | .group _ .plain body | .group _ .ahead body =>
    exact congrFun (emit_swapped cfg body (0 :: path) (depth + 1)) p
  | .quantified _ body quantifier =>
    dsimp only
    rw [emit_swapped cfg body, count_swapped]
  | .charset _ body true =>
    dsimp only
    rw [strike_swapped cfg body]
  | .charset m body false =>
    dsimp only
    have hmember (i : Nat) := emitNth_swapped cfg m.offset body path 0 i (depth + 1) p
    simp only [hmember]
  | .range _ first last =>
    dsimp only
    rw [emit_swapped cfg first, emit_swapped cfg last]
  | .group _ .notAhead _ | .quantifier .. | .literal .. | .numeric .. | .backReference ..
  | .control .. | .token .. | .unknown .. => rfl

/-- Nodes in a row add the same whichever end of the extra repetitions is given first. -/
theorem emitAll_swapped (cfg : Config) (nodes : List Node) (path : Path) (place depth : Nat) :
    emitAll cfg.swapped nodes path place depth = emitAll cfg nodes path place depth := by
  funext p
  unfold emitAll
  match nodes with
  | [] => rfl
  | n :: ns =>
    dsimp only
    rw [emit_swapped cfg n, emitAll_swapped cfg ns]

/-- A member of a set adds the same whichever end of the extra repetitions is given first. -/
theorem emitNth_swapped (cfg : Config) (offset : UInt64) (nodes : List Node) (path : Path)
    (place i depth : Nat) (p : Page) :
    emitNth cfg.swapped offset nodes path place i depth p =
      emitNth cfg offset nodes path place i depth p := by
  unfold emitNth
  match nodes, i with
  | [], _ => rfl
  | n :: _, 0 => exact congrFun (emit_swapped cfg n (place :: path) depth) p
  | _ :: ns, i + 1 => exact emitNth_swapped cfg offset ns path (place + 1) i depth p

/-- The entries of an inverted set strike out the same whichever end of the extra repetitions is
given first. -/
theorem strike_swapped (cfg : Config) (entries : List Node) (path : Path) (place depth : Nat)
    (pool : List Char) (captures : Captures Path) :
    strike cfg.swapped entries path place depth pool captures =
      strike cfg entries path place depth pool captures := by
  unfold strike
  match entries with
  | [] => rfl
  | .range _ first last :: rest =>
    have hrest := strike_swapped cfg rest path (place + 1) depth
    dsimp only
    simp only [emit_swapped cfg first, emit_swapped cfg last, hrest]
  | .literal .. :: rest | .alternate .. :: rest | .sequence .. :: rest | .group .. :: rest
  | .quantified .. :: rest | .quantifier .. :: rest | .charset .. :: rest | .numeric .. :: rest
  | .backReference .. :: rest | .control .. :: rest | .token .. :: rest | .unknown .. :: rest =>
    exact strike_swapped cfg rest path (place + 1) depth _ captures

end

namespace Sampler

variable {α : Type} {src : Source σ} {step : α → Sampler α} {a b : α} {s : σ}

/-- The runs of a step for a number of times, each from where the one before it ended. After a run
that fails there are no more. -/
def rounds (src : Source σ) (step : α → Sampler α) : Nat → α → σ → List (Outcome σ α)
  | 0, _, _ => []
  | n + 1, a, s =>
    let o := (step a).run src s
    o :: match o.result with
      | .ok a => rounds src step n a o.state
      | .error _ => []

/-- A round that gives a value is followed by the others. -/
theorem rounds_of_ok (h : ((step a).run src s).result = .ok b) (n : Nat) :
    rounds src step (n + 1) a s =
      (step a).run src s :: rounds src step n b ((step a).run src s).state := by
  rw [rounds, h]

/-- A round that fails is the last one. -/
theorem rounds_of_error {e : SampleError} (h : ((step a).run src s).result = .error e) (n : Nat) :
    rounds src step (n + 1) a s = [(step a).run src s] := by
  rw [rounds, h]

end Sampler

/-- A result comes from some rounds, if it is a value and there are `n` of them, none of which
fails, or if it is an error and there are no more than `n`, of which just the last one fails. -/
structure ComesFrom {α : Type} (result : Except SampleError α) (n : Nat)
    (os : List (Outcome σ α)) : Prop where
  gives : ∀ a, result = .ok a → os.length = n ∧ ∀ o ∈ os, ∃ b, o.result = .ok b
  fails : ∀ e, result = .error e → os.length ≤ n ∧
    ∃ earlier last, os = earlier ++ [last] ∧ last.result = .error e ∧
      ∀ o ∈ earlier, ∃ b, o.result = .ok b

namespace ComesFrom

variable {α : Type} {result : Except SampleError α} {n : Nat} {o : Outcome σ α}
  {os : List (Outcome σ α)}

/-- An error comes from a round that fails with it. -/
theorem failed {e : SampleError} (ho : o.result = .error e) :
    ComesFrom (.error e : Except SampleError α) (n + 1) [o] where
  gives := nofun
  fails _ he := ⟨Nat.succ_le_succ (Nat.zero_le n), [], o, rfl, ho.trans he, nofun⟩

/-- A round that does not fail may come first. -/
theorem cons {b : α} (ho : o.result = .ok b) (h : ComesFrom result n os) :
    ComesFrom result (n + 1) (o :: os) where
  gives a ha := by
    obtain ⟨hlength, hall⟩ := h.gives a ha
    exact ⟨congrArg (· + 1) hlength, List.forall_mem_cons.mpr ⟨⟨b, ho⟩, hall⟩⟩
  fails e he := by
    obtain ⟨hlength, earlier, last, hsplit, hlast, hall⟩ := h.fails e he
    exact ⟨Nat.succ_le_succ hlength, o :: earlier, last, congrArg _ hsplit, hlast,
      List.forall_mem_cons.mpr ⟨⟨b, ho⟩, hall⟩⟩

end ComesFrom

/-- A number of rounds takes the steps of each, and comes to their result. -/
theorem Sampler.run_iterate {α : Type} (src : Source σ) (step : α → Sampler α) (n : Nat) (a : α)
    (s : σ) :
    let o := (iterate step n a).run src s
    let os := rounds src step n a s
    o.steps = os.flatMap Outcome.steps ∧ ComesFrom o.result n os := by
  induction n generalizing a s with
  | zero => exact ⟨rfl, fun _ _ => ⟨rfl, nofun⟩, nofun⟩
  | succ n ih =>
    dsimp only
    rw [iterate, run_bind, Outcome.andThen]
    cases hstep : ((step a).run src s).result with
    | error e =>
      rw [rounds_of_error hstep, List.flatMap_singleton]
      exact ⟨rfl, .failed hstep⟩
    | ok b =>
      obtain ⟨hsteps, hresult⟩ := ih b ((step a).run src s).state
      rw [rounds_of_ok hstep, List.flatMap_cons, ← hsteps]
      exact ⟨rfl, hresult.cons hstep⟩

open Sampler

/-- A repetition that is not too deep asks for a count, and goes through as many rounds. -/
theorem emit_quantified {cfg : Config} (mark : Mark) (body quantifier : Node) (path : Path)
    {depth : Nat} (hdepth : depth < cfg.maxDepth) (p : Page) :
    emit cfg (.quantified mark body quantifier) path depth p =
      .note (.visit path) fun _ =>
        count cfg quantifier >>= fun n => iterate (emit cfg body (0 :: path) (depth + 1)) n p := by
  rw [emit, if_neg (Nat.not_le.mpr hdepth)]

/-- How a repetition runs. With an upper bound its count is asked for with one call, and without one
with two calls, the first of which is for the extra repetitions. The call for the count is only made
if the bounds are in order and the upper one fits into a word. The count is the last answer, and the
ends of the extra repetitions may be given in either order. The body is evaluated as often as the
count says, unless an evaluation fails. -/
theorem run_emit_quantified (src : Source σ) (hsrc : src.KeepsIntegers) (cfg : Config)
    (mark quantifierMark : Mark) (bounds : Bounds) (isGreedy : Bool) (body : Node) (path : Path)
    (depth : Nat) (p : Page) (s : σ) :
    let quantifier := Node.quantifier quantifierMark bounds isGreedy
    let least := max bounds.min.toInt 0
    let c := (count cfg quantifier).run src s
    (∀ most, bounds.max = some most →
      c.CountsWithin [] quantifierMark.offset least most.toInt most.toInt) ∧
    (bounds.max = none → ∃ extra : UInt32,
      (min cfg.extraFrom.toNat cfg.extraTo.toNat ≤ extra.toNat ∧
        extra.toNat ≤ max cfg.extraFrom.toNat cfg.extraTo.toNat) ∧
      c.CountsWithin
        [⟨.integer (min cfg.extraFrom cfg.extraTo) (max cfg.extraFrom cfg.extraTo), extra⟩]
        quantifierMark.offset least (least + extra.toNat)
        (min (least + extra.toNat) 0x7FFFFFFFFFFFFFFF)) ∧
    (count cfg.swapped quantifier = count cfg quantifier ∧
      ∀ node path depth, emit cfg.swapped node path depth = emit cfg node path depth) ∧
    (depth < cfg.maxDepth →
      let o := (emit cfg (.quantified mark body quantifier) path depth p).run src s
      (∀ e, c.result = .error e →
        o.result = .error e ∧ o.steps = .event (.visit path) :: c.steps) ∧
      ∀ n, c.result = .ok n →
        let os := rounds src (emit cfg body (0 :: path) (depth + 1)) n p c.state
        o.steps = .event (.visit path) :: (c.steps ++ os.flatMap Outcome.steps) ∧
          ComesFrom o.result n os) := by
  intro quantifier least c
  refine ⟨fun most hmax => countsWithin_run_count hsrc cfg _ isGreedy hmax s, fun hmax => ?_,
    ⟨count_swapped cfg quantifier, emit_swapped cfg⟩, fun hdepth => ?_⟩
  · have hextra := hsrc (.integer cfg.leastExtra cfg.mostExtra) s cfg.leastExtra_le_mostExtra
    rw [UInt32.le_iff_toNat_le, UInt32.le_iff_toNat_le, cfg.toNat_leastExtra,
      cfg.toNat_mostExtra] at hextra
    exact ⟨_, hextra, countsWithin_run_count_extra hsrc cfg _ isGreedy hmax s⟩
  · intro o
    have hrun : o = (emit cfg (.quantified mark body quantifier) path depth p).run src s := rfl
    rw [emit_quantified mark body quantifier path hdepth p, run_note, run_bind,
      Outcome.andThen] at hrun
    rw [hrun]
    refine ⟨fun e he => ?_, fun n hn => ?_⟩
    · rw [he]
      exact ⟨rfl, rfl⟩
    · obtain ⟨hsteps, hresult⟩ :=
        run_iterate src (emit cfg body (0 :: path) (depth + 1)) n p c.state
      rw [hn]
      dsimp only
      rw [hsteps]
      exact ⟨rfl, hresult⟩

/-- Two or more letters, with the ends of the extra repetitions given the other way round. -/
theorem run_emit_quantified_twoOrMore :
    let cfg : Config := { extraFrom := 7, extraTo := 3 }
    let o := (emit cfg (.repeated (.ofChar 'a') (.times 2 none)) [] 0 { }).run Source.lowest ()
    let os := rounds Source.lowest (emit cfg (.ofChar 'a') [0] 1) 2 { } ()
    o.calls = [⟨.integer 3 7, 3⟩, ⟨.integer 2 5, 2⟩] ∧ (o.result.map Page.text) = .ok "aa" ∧
      os.length = 2 ∧ ∀ r ∈ os, ∃ p, r.result = .ok p := by
  intro cfg o os
  obtain ⟨-, -, -, hrounds⟩ := run_emit_quantified Source.lowest
    Source.lowest_inBounds.keepsIntegers cfg { text := "a\x7b2,\x7d" } { text := "\x7b2,\x7d" }
    { min := 2, max := none } true (.ofChar 'a') [] 0 { } ()
  obtain ⟨-, hgives⟩ := hrounds (by decide)
  obtain ⟨-, hresult⟩ := hgives 2 rfl
  obtain ⟨hlength, hall⟩ := hresult.gives _ rfl
  exact ⟨rfl, rfl, hlength, hall⟩

end PatternSampler
