import PatternSampler.Sample.Emit

/-!
# Sampling from the bottom up

`emit` adds to a page that grows as the pattern is walked through, and cuts the text of a group out
of it. `Memory.evaluate` is the interpreter without a page: it gives the text of every node by
itself, and puts the texts of the parts together. It is told how groups are remembered, so that
other ways to remember them can be compared with the one that `emit` uses, `Captures.memory`.

`emit_eq_evaluate` shows that the two are the same computation, choice by choice and event by event,
from whatever page `emit` starts.
-/

namespace PatternSampler

/-- A way to remember the groups of a pattern and the texts they gave. -/
structure Memory (μ : Type) where
  /-- Enters a group: its number, whether this is the first time, and what is remembered then. -/
  enter : Path → μ → Nat × Bool × μ
  /-- Leaves the group with the given number, which gave the given text. -/
  leave : Path → Nat → String → μ → μ
  /-- The text of the group with the given number. -/
  recalled : Nat → μ → String

/-- The record of captured texts as a memory. -/
def Captures.memory : Memory (Captures Path) where
  enter path c :=
    match c.number? path with
    | some number => (number, false, c)
    | none => (c.nextNumber, true, c.add path)
  leave _ number text c := c.keep number text
  recalled number c := c.kept number

namespace Sampler

variable {μ : Type}

/-- The one character of a text, for the end of a range at the given offset. -/
def onlyChar (offset : UInt64) : String × μ → Sampler (Char × μ)
  | (s, m) =>
    match s.toList with
    | [c] => pure (c, m)
    | _ => fail (.invalidRangeEndpoint offset s)

/-- The texts of a number of steps in a row. -/
def repeated (step : μ → Sampler (String × μ)) : Nat → μ → Sampler (String × μ)
  | 0, m => pure ("", m)
  | n + 1, m => do
    let (s, m) ← step m
    let (t, m) ← repeated step n m
    pure (s ++ t, m)

/-- The text of a leaf without content. -/
def tokenText (offset : UInt64) : Token → Sampler String
  | .start | .finish | .backspace | .wordBoundary | .nonWordBoundary | .formFeed
  | .carriageReturn | .tab | .verticalTab | .nullCharacter => pure ""
  | .anyCharacter => return (← character).toString
  | .lineFeed => pure "\n"
  | .digit => return (← pickChar offset Alphabet.number).toString
  | .nonDigit => return (← pickChar offset Alphabet.nonDigit).toString
  | .whiteSpace => return (← pickChar offset Alphabet.space).toString
  | .nonWhiteSpace | .word => return (← pickChar offset Alphabet.alnum).toString
  | .nonWord => return (← pickChar offset Alphabet.other).toString

end Sampler

namespace Memory

variable {μ : Type} (mem : Memory μ) (cfg : Config)

open Sampler in
mutual

/-- The text of a node, and what is remembered after it. -/
def evaluate (node : Node) (path : Path) (depth : Nat) (m : μ) : Sampler (String × μ) :=
  if cfg.maxDepth ≤ depth then fail (.tooDeep node.offset cfg.maxDepth)
  else note (.visit path) fun _ =>
    match node with
    | .alternate _ l r => do
      if ← boolean then evaluate l (0 :: path) (depth + 1) m
      else evaluate r (1 :: path) (depth + 1) m
    | .sequence _ body => evaluateAll body path 0 (depth + 1) m
    | .group mark .capturing body => do
      let (number, isNew, m) := mem.enter path m
      tell (.enter path mark.offset number isNew)
      let (s, m) ← evaluate body (0 :: path) (depth + 1) m
      tell (.leave path s)
      pure (s, mem.leave path number s m)
    | .group _ .notAhead _ => pure ("", m)
    | .group _ _ body => evaluate body (0 :: path) (depth + 1) m
    | .quantified _ body quantifier => do
      let n ← count cfg quantifier
      repeated (evaluate body (0 :: path) (depth + 1)) n m
    | .quantifier .. => pure ("", m)
    | .charset mark body true => do
      let (pool, m) ← spare body path 0 (depth + 1) Alphabet.printable m
      let c ← pickChar mark.offset pool
      pure (c.toString, m)
    | .charset mark body false => do
      match ← index body.length with
      | some i => evaluateNth mark.offset body path 0 i (depth + 1) m
      | none => fail (.emptyCharset mark.offset)
    | .range mark first last => do
      let (a, b, m) ← ends mark.offset
        (fun m => evaluate first (0 :: path) (depth + 1) m >>= onlyChar first.offset)
        (fun m => evaluate last (1 :: path) (depth + 1) m >>= onlyChar last.offset) m
      let value ← between a b
      let c ← ofExcept (scalar mark.offset value)
      pure (c.toString, m)
    | .literal mark c isEscaped => pure (if isEscaped then c.toString else mark.text, m)
    | .numeric mark form code => do
      let c ← ofExcept (escaped mark.offset form code)
      pure (c.toString, m)
    | .backReference _ code => do
      tell (.refer code.toNat (mem.recalled code.toNat m))
      pure (mem.recalled code.toNat m, m)
    | .control mark code =>
      match Alphabet.control? code with
      | some c => pure (c.toString, m)
      | none => fail (.unknownControl mark.offset code)
    | .token mark kind => return (← tokenText mark.offset kind, m)
    | .unknown mark => pure (mark.text, m)

/-- The texts of some nodes put together. -/
def evaluateAll (nodes : List Node) (path : Path) (place depth : Nat) (m : μ) :
    Sampler (String × μ) :=
  match nodes with
  | [] => pure ("", m)
  | n :: ns => do
    let (s, m) ← evaluate n (place :: path) depth m
    let (t, m) ← evaluateAll ns path (place + 1) depth m
    pure (s ++ t, m)

/-- The text of the node that comes `i` places after the first. -/
def evaluateNth (offset : UInt64) (nodes : List Node) (path : Path) (place i depth : Nat) (m : μ) :
    Sampler (String × μ) :=
  match nodes, i with
  | [], _ => fail (.emptyCharset offset)
  | n :: _, 0 => evaluate n (place :: path) depth m
  | _ :: ns, i + 1 => evaluateNth offset ns path (place + 1) i depth m

/-- The characters of a pool that no entry strikes out. -/
def spare (entries : List Node) (path : Path) (place depth : Nat) (pool : List Char) (m : μ) :
    Sampler (List Char × μ) :=
  match entries with
  | [] => pure (pool, m)
  | .literal _ c _ :: rest => spare rest path (place + 1) depth (pool.filter (· ≠ c)) m
  | .range mark first last :: rest =>
    note (.visit (place :: path)) fun _ => do
      let (a, b, m) ← ends mark.offset
        (fun m => evaluate first (0 :: place :: path) depth m >>= onlyChar first.offset)
        (fun m => evaluate last (1 :: place :: path) depth m >>= onlyChar last.offset) m
      let pool := pool.filter fun c => ¬ (a ≤ c ∧ c ≤ b)
      spare rest path (place + 1) depth (withoutShorthand mark.text pool) m
  | entry :: rest => spare rest path (place + 1) depth (withoutShorthand entry.text pool) m

end

end Memory

namespace Page

/-- The page with a text added and with other captures. -/
def extend (p : Page) (r : String × Captures Path) : Page :=
  { written := p.written ++ r.1.toList.toArray, captures := r.2 }

/-- Two texts added one after the other are added together. -/
@[simp] theorem extend_extend (p : Page) (r t : String × Captures Path) :
    (p.extend r).extend t = p.extend (r.1 ++ t.1, t.2) := by
  simp [extend, String.toList_append]

/-- The captures of a page that has been extended. -/
@[simp] theorem captures_extend (p : Page) (r : String × Captures Path) :
    (p.extend r).captures = r.2 := rfl

/-- An empty text adds nothing. -/
@[simp] theorem extend_empty (p : Page) : p.extend ("", p.captures) = p := by
  simp [extend]

/-- A character is added as a text. -/
theorem push_eq_extend (p : Page) (ch : Char) : p.push ch = p.extend (ch.toString, p.captures) := by
  simp [push, extend]

/-- A text is added where the captures stay as they are. -/
theorem append_eq_extend (p : Page) (s : String) : p.append s = p.extend (s, p.captures) := rfl

/-- What is added later does not depend on the captures before. -/
@[simp] theorem extend_with_captures (p : Page) (c : Captures Path) (r : String × Captures Path) :
    { p with captures := c }.extend r = p.extend r := rfl

/-- What has been written since a page was left is the text that extends it. -/
@[simp] theorem since_extend (p : Page) (r : String × Captures Path) :
    (p.extend r).since p.written.size = r.1 := by
  simp [since, extend]

end Page

namespace Sampler

/-- A group is entered as its memory says. -/
theorem enter_eq_memory (path : Path) (offset : UInt64) (c : Captures Path) :
    enter path offset c =
      (do
        let (number, isNew, c) := Captures.memory.enter path c
        tell (.enter path offset number isNew)
        pure (number, c)) := by
  unfold enter Captures.memory
  cases h : c.number? path <;> simp only [h]

/-- A leaf without content adds its text. -/
theorem token_eq_extend (offset : UInt64) (kind : Token) (p : Page) :
    token offset kind p = (fun s => p.extend (s, p.captures)) <$> tokenText offset kind := by
  cases kind <;> simp [token, tokenText, Page.push_eq_extend]

/-- Two texts in a row are added one after the other. -/
theorem bind_map_extend (p : Page) (x : Sampler (String × Captures Path))
    (f : Captures Path → Sampler (String × Captures Path)) :
    (x >>= fun r => (p.extend r).extend <$> f r.2) =
      p.extend <$> (do
        let (s, c) ← x
        let (t, c) ← f c
        pure (s ++ t, c)) := by
  rw [map_bind]
  refine bind_congr fun r => ?_
  rw [← bind_pure_comp, map_bind]
  simp only [Page.extend_extend, map_pure]

/-- Steps in a row add their texts in a row. -/
theorem iterate_eq_extend {step : Page → Sampler Page}
    {read : Captures Path → Sampler (String × Captures Path)}
    (h : ∀ p, step p = p.extend <$> read p.captures) (n : Nat) (p : Page) :
    iterate step n p = p.extend <$> repeated read n p.captures := by
  induction n generalizing p with
  | zero => simp [iterate, repeated]
  | succ n ih =>
    simp only [iterate, repeated, h, ih, bind_map_left, Page.captures_extend]
    exact bind_map_extend p _ _

/-- The page of its own that an end of a range is written on holds nothing but its text. -/
theorem endpoint_eq_onlyChar {write : Page → Sampler Page}
    {read : Captures Path → Sampler (String × Captures Path)}
    (h : ∀ p, write p = p.extend <$> read p.captures) (offset : UInt64) :
    endpoint offset write = fun c => read c >>= onlyChar offset := by
  funext c
  rw [endpoint, h, bind_map_left]
  refine bind_congr fun r => ?_
  -- The page is empty before the end is written on it, so the text is all that it holds.
  have hwritten : (({ captures := c } : Page).extend r).written.toList = r.1.toList := by
    simp [Page.extend]
  have htext : (({ captures := c } : Page).extend r).text = r.1 := by
    rw [Page.text, hwritten, String.ofList_toList]
  rw [hwritten, htext, Page.captures_extend]
  rfl

end Sampler

open Sampler

mutual

/-- `emit` adds to its page the text that the node gives by itself. -/
theorem emit_eq_evaluate (cfg : Config) (node : Node) (path : Path) (depth : Nat) (p : Page) :
    emit cfg node path depth p =
      p.extend <$> Captures.memory.evaluate cfg node path depth p.captures := by
  unfold emit Memory.evaluate
  split
  · rfl
  rw [map_note]
  refine congrArg _ (funext fun _ => ?_)
  match node with
  | .alternate _ l r =>
    rw [map_bind]
    refine bind_congr fun b => ?_
    cases b
    · exact emit_eq_evaluate cfg r _ _ _
    · exact emit_eq_evaluate cfg l _ _ _
  | .sequence _ body => exact emitAll_eq_evaluateAll cfg body _ _ _ _
  | .group m .capturing body =>
    simp only [enter_eq_memory, bind_assoc, pure_bind, map_bind, map_pure]
    refine bind_congr fun _ => ?_
    simp only [emit_eq_evaluate cfg body, bind_map_left, Page.extend_with_captures]
    refine bind_congr fun r => ?_
    -- What the page has grown by since the group was entered is the text of the body.
    simp only [leave, Page.since_extend]
    rfl
  | .group _ .plain body => exact emit_eq_evaluate cfg body _ _ _
  | .group _ .ahead body => exact emit_eq_evaluate cfg body _ _ _
  | .group _ .notAhead _ => simp
  | .quantified _ body q =>
    rw [map_bind]
    refine bind_congr fun n => ?_
    exact iterate_eq_extend (emit_eq_evaluate cfg body _ _) n p
  | .quantifier .. => simp
  | .charset m body true =>
    simp only [strike_eq_spare cfg body, map_bind, map_pure, Page.push_eq_extend,
      Page.extend_with_captures]
  | .charset m body false =>
    rw [map_bind]
    refine bind_congr fun i => ?_
    cases i with
    | none => rfl
    | some i => exact emitNth_eq_evaluateNth cfg _ body _ _ _ _ _
  | .range m first last =>
    simp only [endpoint_eq_onlyChar (emit_eq_evaluate cfg first _ _),
      endpoint_eq_onlyChar (emit_eq_evaluate cfg last _ _), map_bind, map_pure,
      Page.push_eq_extend, Page.extend_with_captures]
  | .literal m c isEscaped =>
    cases isEscaped
    · simp [Page.append_eq_extend]
    · simp [Page.push_eq_extend]
  | .numeric m form code => simp [Page.push_eq_extend]
  | .backReference _ code => simp [Page.append_eq_extend, Captures.memory]
  | .control m code =>
    dsimp only
    cases Alphabet.control? code with
    | none => rfl
    | some c => simp [Page.push_eq_extend]
  | .token m kind => simp [token_eq_extend]
  | .unknown m => simp [Page.append_eq_extend]

/-- `emitAll` adds to its page the texts that the nodes give by themselves. -/
theorem emitAll_eq_evaluateAll (cfg : Config) (nodes : List Node) (path : Path) (place depth : Nat)
    (p : Page) :
    emitAll cfg nodes path place depth p =
      p.extend <$> Captures.memory.evaluateAll cfg nodes path place depth p.captures := by
  unfold emitAll Memory.evaluateAll
  match nodes with
  | [] => simp
  | n :: ns =>
    simp only [emit_eq_evaluate cfg n, emitAll_eq_evaluateAll cfg ns, bind_map_left,
      Page.captures_extend]
    exact bind_map_extend p _ _

/-- `emitNth` adds to its page the text that one node gives by itself. -/
theorem emitNth_eq_evaluateNth (cfg : Config) (offset : UInt64) (nodes : List Node) (path : Path)
    (place i depth : Nat) (p : Page) :
    emitNth cfg offset nodes path place i depth p =
      p.extend <$> Captures.memory.evaluateNth cfg offset nodes path place i depth p.captures := by
  unfold emitNth Memory.evaluateNth
  match nodes, i with
  | [], _ => rfl
  | n :: _, 0 => exact emit_eq_evaluate cfg n _ _ _
  | _ :: ns, i + 1 => exact emitNth_eq_evaluateNth cfg offset ns _ _ _ _ _

/-- What is left of a pool does not depend on a page. -/
theorem strike_eq_spare (cfg : Config) (entries : List Node) (path : Path) (place depth : Nat)
    (pool : List Char) (c : Captures Path) :
    strike cfg entries path place depth pool c =
      Captures.memory.spare cfg entries path place depth pool c := by
  unfold strike Memory.spare
  match entries with
  | [] => rfl
  | .range m first last :: rest =>
    simp only [endpoint_eq_onlyChar (emit_eq_evaluate cfg first _ _),
      endpoint_eq_onlyChar (emit_eq_evaluate cfg last _ _), strike_eq_spare cfg rest]
  | .literal .. :: rest => exact strike_eq_spare cfg rest _ _ _ _ _
  | .alternate .. :: rest | .sequence .. :: rest | .group .. :: rest | .quantified .. :: rest
  | .quantifier .. :: rest | .charset .. :: rest | .numeric .. :: rest | .backReference .. :: rest
  | .control .. :: rest | .token .. :: rest | .unknown .. :: rest =>
    exact strike_eq_spare cfg rest _ _ _ _ _

end

/-- A sample of a pattern, from the bottom up. -/
def Memory.sample {μ : Type} (mem : Memory μ) (cfg : Config) (node : Node) (m : μ) :
    Sampler String := do
  let (s, _) ← mem.evaluate cfg node [] 0 m
  tell (.complete s.length node.tag node.offset)
  pure s

/-- A sample is what the pattern gives from the bottom up, when nothing is captured yet. -/
theorem sample_eq_memory (cfg : Config) (node : Node) :
    sample cfg node = Captures.memory.sample cfg node { } := by
  have htext (r : String × Captures Path) : (({ } : Page).extend r).text = r.1 := by
    simp [Page.extend, Page.text]
  have hsize (r : String × Captures Path) : (({ } : Page).extend r).written.size = r.1.length := by
    simp [Page.extend, String.length_toList]
  rw [sample, emit_eq_evaluate, bind_map_left, Memory.sample]
  simp only [htext, hsize]

/-- What has been written before, put in front of a page. -/
def Page.after (earlier : Array Char) (p : Page) : Page :=
  { p with written := earlier ++ p.written }

/-- A page extends what has been written before by what it would hold by itself. -/
theorem Page.extend_eq_after (p : Page) :
    p.extend = Page.after p.written ∘ { p with written := #[] }.extend := by
  funext r
  simp [extend, after]

/-- A run of a capturing group, evaluated by itself, is a run of its body between two events. -/
theorem run_evaluate_group {σ μ : Type} (src : Source σ) (mem : Memory μ) (cfg : Config)
    (mark : Mark) (body : Node) (path : Path) {depth : Nat} (h : depth < cfg.maxDepth) (m : μ)
    (s : σ) :
    (mem.evaluate cfg (.group mark .capturing body) path depth m).run src s =
      let (number, isNew, m) := mem.enter path m
      let o := (mem.evaluate cfg body (0 :: path) (depth + 1) m).run src s
      { result := o.result.map fun (text, m) => (text, mem.leave path number text m)
        steps := .event (.visit path) :: .event (.enter path mark.offset number isNew) :: o.steps ++
          match o.result with
          | .ok (text, _) => [.event (.leave path text)]
          | .error _ => []
        state := o.state } := by
  rw [Memory.evaluate, if_neg (Nat.not_le.mpr h)]
  generalize mem.enter path m = entered
  obtain ⟨number, isNew, m⟩ := entered
  dsimp only
  simp only [tell_bind, run_note, run_bind]
  generalize (mem.evaluate cfg body (0 :: path) (depth + 1) m).run src s = o
  obtain ⟨r, steps, s⟩ := o
  cases r <;> simp [Outcome.andThen, Except.map]

/-- Whatever has been written before, a run that adds to it has the same result, takes the same
steps and leaves the same source state as the run that evaluates the node by itself, and as the run
that starts with an empty page: what has been written before stays in front, and the text of the
node follows it. A group keeps what its body gave when it was evaluated by itself. -/
theorem run_emit {σ : Type} (src : Source σ) (cfg : Config) (node : Node) (path : Path)
    (depth : Nat) (p : Page) (s : σ) :
    (emit cfg node path depth p).run src s =
        ((Captures.memory.evaluate cfg node path depth p.captures).run src s).map p.extend ∧
      (emit cfg node path depth p).run src s =
        ((emit cfg node path depth { p with written := #[] }).run src s).map
          (Page.after p.written) ∧
      ∀ m body q,
        ((emit cfg (.group m .capturing body) path depth p).run src s).result = .ok q →
        ∃ number isNew captures text captures',
          Captures.memory.enter path p.captures = (number, isNew, captures) ∧
          ((Captures.memory.evaluate cfg body (0 :: path) (depth + 1) captures).run src s).result =
            .ok (text, captures') ∧
          q = p.extend (text, captures'.keep number text) ∧
          ((emit cfg (.group m .capturing body) path depth p).run src s).steps.getLast? =
            some (.event (.leave path text)) := by
  refine ⟨?_, ?_, ?_⟩
  · rw [emit_eq_evaluate, run_map]
  · rw [emit_eq_evaluate, emit_eq_evaluate cfg node path depth { p with written := #[] }, run_map,
      run_map, Outcome.map_map, Page.extend_eq_after]
  · intro m body q hq
    rw [emit_eq_evaluate, run_map] at hq ⊢
    -- The group is not too deep, or else the run would have failed.
    have hlt : depth < cfg.maxDepth := by
      refine Nat.lt_of_not_le fun h => ?_
      rw [Memory.evaluate, if_pos h] at hq
      cases hq
    rw [run_evaluate_group src _ cfg m body path hlt] at hq ⊢
    generalize Captures.memory.enter path p.captures = entered at hq ⊢
    obtain ⟨number, isNew, captures⟩ := entered
    refine ⟨number, isNew, captures, ?_⟩
    dsimp only [Outcome.map] at hq ⊢
    generalize (Captures.memory.evaluate cfg body (0 :: path) (depth + 1) captures).run src s = o
      at hq ⊢
    obtain ⟨_ | ⟨text, captures'⟩, steps, s'⟩ := o
    · cases hq
    · cases hq
      exact ⟨text, captures', rfl, rfl, rfl, List.getLast?_concat⟩

/-- A letter between two others, ends included. -/
def Node.letterBetween (first last : Char) : Node :=
  .range { } (.literal { } first true) (.literal { } last true)

/-- A group with a letter keeps just that letter when something has been written before. -/
theorem run_emit_letterBetween :
    let body := Node.letterBetween 'b' 'y'
    let o := (emit { } (.group { } .capturing body) [] 0 { written := #['a'] }).run Source.lowest ()
    o.result = .ok { written := #['a', 'b'], captures := ⟨[[]], [(1, "b")]⟩ } ∧
      ∃ text,
        ((Captures.memory.evaluate { } body [0] 1 ⟨[[]], []⟩).run Source.lowest ()).result =
            .ok (text, ⟨[[]], []⟩) ∧
          o.steps.getLast? = some (.event (.leave [] text)) := by
  intro body o
  refine ⟨rfl, ?_⟩
  obtain ⟨number, isNew, captures, text, captures', henter, hbody, -, hlast⟩ :=
    (run_emit Source.lowest { } body [] 0 { written := #['a'] } ()).2.2 { } body _ rfl
  cases henter
  cases hbody
  exact ⟨"b", rfl, hlast⟩

end PatternSampler
