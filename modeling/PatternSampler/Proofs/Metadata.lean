import PatternSampler.Pattern.Build
import PatternSampler.Sample.Emit

/-!
# What a sample does not depend on

Much of what a pattern tree carries is there for a reader: where a node stands, from which text it
was read, whether a repetition is greedy. `Node.bare` is the tree without all this. What is left of
a text is that of an unescaped literal, that of an unknown node, and that of an entry of an inverted
set, unless the entry is a literal: an entry counts for the class that its text spells, whatever its
kind is.

A sample of the bare tree is a sample of the tree, call by call and event by event, but for the
offsets in what is reported (`withoutOffsets_emit`). So trees that are bare in the same way cannot
be told apart by their samples (`run_eq_of_bare_eq`).
-/

namespace PatternSampler

namespace Node

mutual

/-- The tree without what a sample does not depend on. -/
def bare : Node → Node
  | alternate _ l r => alternate { } l.bare r.bare
  | sequence _ body => sequence { } (bareAll body)
  | group _ .notAhead _ => group { } .notAhead (unknown { })
  | group _ style body => group { } style body.bare
  | quantified _ body q => quantified { } body.bare q.bare
  | quantifier _ bounds _ => quantifier { } bounds true
  | charset _ body true => charset { } (bareEntries body) true
  | charset _ body false => charset { } (bareAll body) false
  | range _ first last => range { } first.bare last.bare
  | literal _ c true => literal { } c true
  | literal m _ false => literal { text := m.text } ' ' false
  | numeric _ form code => numeric { } form code
  | backReference _ code => backReference { } code
  | control _ code => control { } code
  | token _ kind => token { } kind
  | unknown m => unknown { text := m.text }

/-- Some trees without what a sample does not depend on. -/
def bareAll : List Node → List Node
  | [] => []
  | n :: ns => n.bare :: bareAll ns

/-- The entries of an inverted set without what a sample does not depend on. Of a literal its
character is left, of a range its ends and its text, and of any other entry its text. -/
def bareEntries : List Node → List Node
  | [] => []
  | literal _ c _ :: rest => literal { } c true :: bareEntries rest
  | range m first last :: rest =>
    range { text := m.text } first.bare last.bare :: bareEntries rest
  | entry :: rest => unknown { text := entry.text } :: bareEntries rest

end

/-- A bare tree is of the same kind. -/
theorem tag_bare (n : Node) : n.bare.tag = n.tag := by
  unfold bare
  split <;> rfl

/-- A bare tree stands nowhere. -/
theorem offset_bare (n : Node) : n.bare.offset = 0 := by
  unfold bare
  split <;> rfl

/-- There are as many bare trees as trees. -/
theorem length_bareAll (ns : List Node) : (bareAll ns).length = ns.length := by
  induction ns with
  | nil => rfl
  | cons n ns ih => exact congrArg (· + 1) ih

end Node

/-- The error without the offset of the node at fault. -/
def SampleError.withoutOffset : SampleError → SampleError
  | .exhaustedPool _ => .exhaustedPool 0
  | .emptyCharset _ => .emptyCharset 0
  | .notAQuantifier _ found => .notAQuantifier 0 found
  | .invalidBounds _ min max => .invalidBounds 0 min max
  | .invalidRangeEndpoint _ got => .invalidRangeEndpoint 0 got
  | .backwardsRange _ first last => .backwardsRange 0 first last
  | .invalidCode _ code base => .invalidCode 0 code base
  | .invalidCodePoint _ value => .invalidCodePoint 0 value
  | .unknownControl _ code => .unknownControl 0 code
  | .tooDeep _ limit => .tooDeep 0 limit

/-- The event without the offset of the node that it is about. -/
def Event.withoutOffset : Event → Event
  | .visit path => .visit path
  | .enter path _ number isNew => .enter path 0 number isNew
  | .leave path text => .leave path text
  | .refer number text => .refer number text
  | .capped _ most => .capped 0 most
  | .complete length kind _ => .complete length kind 0

/-- The step without the offset of the node that it is about. -/
def Step.withoutOffset : Step → Step
  | .call c => .call c
  | .event e => .event e.withoutOffset

namespace Outcome

variable {σ α : Type}

/-- The outcome without the offsets in what is reported. -/
def withoutOffsets (o : Outcome σ α) : Outcome σ α where
  result := o.result.mapError SampleError.withoutOffset
  steps := o.steps.map Step.withoutOffset
  state := o.state

/-- The calls have no offsets. -/
theorem calls_withoutOffsets (o : Outcome σ α) : o.withoutOffsets.calls = o.calls := by
  unfold calls withoutOffsets
  rw [List.filterMap_map]
  refine congrArg (List.filterMap · o.steps) (funext fun step => ?_)
  cases step <;> rfl

/-- The events are those of the outcome, without their offsets. -/
theorem events_withoutOffsets (o : Outcome σ α) :
    o.withoutOffsets.events = o.events.map Event.withoutOffset := by
  unfold events withoutOffsets
  rw [List.filterMap_map, List.map_filterMap]
  refine congrArg (List.filterMap · o.steps) (funext fun step => ?_)
  cases step <;> rfl

end Outcome

namespace Sampler

variable {α β : Type}

/-- The sampler without the offsets in what it reports. -/
def withoutOffsets : Sampler α → Sampler α
  | done a => done a
  | fail e => fail e.withoutOffset
  | note e next => note e.withoutOffset fun u => (next u).withoutOffsets
  | ask q next => ask q fun a => (next a).withoutOffsets

/-- A run without offsets is the run of the sampler without them. -/
theorem run_withoutOffsets {σ : Type} (src : Source σ) (p : Sampler α) (s : σ) :
    p.withoutOffsets.run src s = (p.run src s).withoutOffsets := by
  induction p generalizing s with
  | done a => rfl
  | fail e => rfl
  | note e next ih =>
    rw [withoutOffsets, run_note, run_note, ih]
    rfl
  | ask q next ih =>
    rw [withoutOffsets, run_ask, run_ask]
    dsimp only
    rw [ih]
    rfl

/-- Two samplers in a row have the offsets of both. -/
theorem withoutOffsets_bind (p : Sampler α) (f : α → Sampler β) :
    (p >>= f).withoutOffsets = p.withoutOffsets >>= fun a => (f a).withoutOffsets := by
  induction p with
  | done a => rfl
  | fail e => rfl
  | note e next ih => exact congrArg (note _) (funext ih)
  | ask q next ih => exact congrArg (ask q) (funext ih)

/-- Steps in a row have the offsets of each. -/
theorem withoutOffsets_iterate (step : α → Sampler α) (n : Nat) (a : α) :
    (iterate step n a).withoutOffsets = iterate (fun a => (step a).withoutOffsets) n a := by
  induction n generalizing a with
  | zero => rfl
  | succ n ih =>
    rw [iterate, iterate, withoutOffsets_bind]
    exact bind_congr fun a => ih a

/-- A choice of an index reports no offset. -/
theorem withoutOffsets_index (n : Nat) : (index n).withoutOffsets = index n := by
  unfold index
  split <;> rfl

/-- A choice from a pool reports its own offset. -/
theorem withoutOffsets_pickChar (offset : UInt64) (pool : List Char) :
    (pickChar offset pool).withoutOffsets = pickChar 0 pool := by
  unfold pickChar pick
  rw [withoutOffsets_bind, withoutOffsets_bind, withoutOffsets_index]
  refine bind_congr fun c => ?_
  cases c <;> rfl

/-- A choice of a code point reports no offset. -/
theorem withoutOffsets_between (first last : Char) :
    (between first last).withoutOffsets = between first last := by
  unfold between
  split <;> rfl

/-- A group reports its own offset when it is entered. -/
theorem withoutOffsets_enter (path : Path) (offset : UInt64) (c : Captures Path) :
    (enter path offset c).withoutOffsets = enter path 0 c := by
  unfold enter
  split <;> rfl

/-- A character that is given by its code point is looked for on behalf of a node. -/
theorem withoutOffset_scalar (offset : UInt64) (value : UInt32) :
    (scalar offset value).mapError SampleError.withoutOffset = scalar 0 value := by
  unfold scalar
  split <;> rfl

/-- A numeric escape reports its own offset. -/
theorem withoutOffset_escaped (offset : UInt64) (form : EscapeForm) (code : String) :
    (escaped offset form code).mapError SampleError.withoutOffset = escaped 0 form code := by
  unfold escaped
  split
  · exact withoutOffset_scalar offset _
  · rfl

/-- A computation that asks for nothing has the offset of its error. -/
theorem withoutOffsets_ofExcept (x : Except SampleError α) :
    (ofExcept x).withoutOffsets = ofExcept (x.mapError SampleError.withoutOffset) := by
  cases x <;> rfl

/-- A quantifier reports its own offset. -/
theorem withoutOffsets_count (cfg : Config) (q : Node) :
    (count cfg q).withoutOffsets = count cfg q.bare := by
  have hwithin (offset : UInt64) (least most : Int) :
      (countWithin offset least most).withoutOffsets = countWithin 0 least most := by
    unfold countWithin
    split <;> rfl
  cases q with
  | quantifier mark bounds greedy =>
    simp only [count, Node.bare]
    split
    · exact hwithin _ _ _
    · rw [withoutOffsets_bind]
      refine bind_congr fun extra => ?_
      split
      · rfl
      · rw [tell_bind, withoutOffsets, hwithin]
        rfl
  | group m style body => cases style <;> rfl
  | charset m body invert => cases invert <;> rfl
  | literal m c isEscaped => cases isEscaped <;> rfl
  | _ => rfl

/-- An end of a range reports its own offset, besides those in it. -/
theorem withoutOffsets_endpoint (offset : UInt64) (write : Page → Sampler Page)
    (c : Captures Path) :
    (endpoint offset write c).withoutOffsets =
      endpoint 0 (fun p => (write p).withoutOffsets) c := by
  unfold endpoint
  rw [withoutOffsets_bind]
  refine bind_congr fun p => ?_
  split <;> rfl

/-- A range reports its own offset, besides those of its ends. -/
theorem withoutOffsets_ends {μ : Type} (offset : UInt64) (first last : μ → Sampler (Char × μ))
    (m : μ) :
    (ends offset first last m).withoutOffsets =
      ends 0 (fun m => (first m).withoutOffsets) (fun m => (last m).withoutOffsets) m := by
  unfold ends
  rw [withoutOffsets_bind]
  refine bind_congr fun r => ?_
  rw [withoutOffsets_bind]
  refine bind_congr fun r' => ?_
  dsimp only
  split <;> rfl

/-- A leaf without content reports its own offset. -/
theorem withoutOffsets_token (offset : UInt64) (kind : Token) (p : Page) :
    (token offset kind p).withoutOffsets = token 0 kind p := by
  have hpool (pool : List Char) : (pickChar offset pool >>= fun c => pure (p.push c)).withoutOffsets
      = pickChar 0 pool >>= fun c => pure (p.push c) := by
    rw [withoutOffsets_bind, withoutOffsets_pickChar]
    rfl
  cases kind with
  | digit | nonDigit | whiteSpace | nonWhiteSpace | word | nonWord => exact hpool _
  | _ => rfl

end Sampler

open Sampler

variable (cfg : Config)

/-- The ends of a range are evaluated as they are when they are bare, if this is so for each. -/
theorem withoutOffsets_ends_emit (offset : UInt64) {first last : Node} {path path' : Path}
    {depth : Nat}
    (hfirst : ∀ p, (emit cfg first path depth p).withoutOffsets = emit cfg first.bare path depth p)
    (hlast : ∀ p, (emit cfg last path' depth p).withoutOffsets = emit cfg last.bare path' depth p)
    (c : Captures Path) :
    (ends offset (endpoint first.offset (emit cfg first path depth))
        (endpoint last.offset (emit cfg last path' depth)) c).withoutOffsets =
      ends 0 (endpoint first.bare.offset (emit cfg first.bare path depth))
        (endpoint last.bare.offset (emit cfg last.bare path' depth)) c := by
  have hfirst' := funext hfirst
  have hlast' := funext hlast
  rw [withoutOffsets_ends, Node.offset_bare, Node.offset_bare, ← hfirst', ← hlast']
  simp only [withoutOffsets_endpoint]

mutual

/-- A bare tree is sampled as the tree is, but for the offsets in what is reported. -/
theorem withoutOffsets_emit (node : Node) (path : Path) (depth : Nat) (p : Page) :
    (emit cfg node path depth p).withoutOffsets = emit cfg node.bare path depth p := by
  unfold emit
  rw [Node.offset_bare]
  split
  · rfl
  refine congrArg (note _) (funext fun _ => ?_)
  match node with
  | .alternate _ l r =>
    rw [Node.bare, withoutOffsets_bind]
    refine bind_congr fun b => ?_
    cases b
    · exact withoutOffsets_emit r _ _ p
    · exact withoutOffsets_emit l _ _ p
  | .sequence _ body => exact withoutOffsets_emitAll body path 0 _ p
  | .group m .capturing body =>
    -- The group is told apart by its place, so its number does not depend on its offset.
    have hbare : Node.bare (.group m .capturing body) = .group { } .capturing body.bare := rfl
    rw [hbare, withoutOffsets_bind, withoutOffsets_enter]
    refine bind_congr fun r => ?_
    rw [withoutOffsets_bind, withoutOffsets_emit body]
    rfl
  | .group _ .plain body | .group _ .ahead body => exact withoutOffsets_emit body _ _ p
  | .group _ .notAhead _ => rfl
  | .quantified _ body q =>
    rw [Node.bare, withoutOffsets_bind, withoutOffsets_count]
    refine bind_congr fun n => ?_
    rw [withoutOffsets_iterate]
    exact congrArg (iterate · n p) (funext fun p => withoutOffsets_emit body _ _ p)
  | .quantifier .. => rfl
  | .charset m body true =>
    rw [Node.bare, withoutOffsets_bind, withoutOffsets_strike body]
    refine bind_congr fun r => ?_
    rw [withoutOffsets_bind, withoutOffsets_pickChar]
    rfl
  | .charset m body false =>
    rw [Node.bare, withoutOffsets_bind, withoutOffsets_index]
    dsimp only
    rw [Node.length_bareAll]
    refine bind_congr fun i? => ?_
    cases i? with
    | none => rfl
    | some i => exact withoutOffsets_emitNth m.offset body path 0 i _ p
  | .range m first last =>
    have hends := withoutOffsets_ends_emit cfg m.offset (withoutOffsets_emit first (0 :: path) _)
      (withoutOffsets_emit last (1 :: path) (depth + 1)) p.captures
    rw [Node.bare, withoutOffsets_bind, hends]
    refine bind_congr fun r => ?_
    dsimp only
    rw [withoutOffsets_bind, withoutOffsets_between]
    refine bind_congr fun value => ?_
    rw [withoutOffsets_bind, withoutOffsets_ofExcept, withoutOffset_scalar]
    rfl
  | .literal m c true => rfl
  | .literal m c false => rfl
  | .numeric m form code =>
    rw [Node.bare, withoutOffsets_bind, withoutOffsets_ofExcept, withoutOffset_escaped]
    rfl
  | .backReference .. => rfl
  | .control m code =>
    rw [Node.bare]
    dsimp only
    split <;> rfl
  | .token m kind => exact withoutOffsets_token m.offset kind p
  | .unknown _ => rfl

/-- Bare trees in a row are sampled as the trees are. -/
theorem withoutOffsets_emitAll (nodes : List Node) (path : Path) (place depth : Nat) (p : Page) :
    (emitAll cfg nodes path place depth p).withoutOffsets =
      emitAll cfg (Node.bareAll nodes) path place depth p := by
  match nodes with
  | [] => rfl
  | n :: ns =>
    rw [Node.bareAll, emitAll, emitAll, withoutOffsets_bind, withoutOffsets_emit n]
    exact bind_congr fun p => withoutOffsets_emitAll ns path _ depth p

/-- The bare tree that is asked for is sampled as the tree is. -/
theorem withoutOffsets_emitNth (offset : UInt64) (nodes : List Node) (path : Path)
    (place i depth : Nat) (p : Page) :
    (emitNth cfg offset nodes path place i depth p).withoutOffsets =
      emitNth cfg 0 (Node.bareAll nodes) path place i depth p := by
  match nodes, i with
  | [], _ => rfl
  | n :: _, 0 => exact withoutOffsets_emit n _ depth p
  | _ :: ns, i + 1 => exact withoutOffsets_emitNth offset ns path _ i depth p

/-- Bare entries strike out what the entries do. -/
theorem withoutOffsets_strike (entries : List Node) (path : Path) (place depth : Nat)
    (pool : List Char) (c : Captures Path) :
    (strike cfg entries path place depth pool c).withoutOffsets =
      strike cfg (Node.bareEntries entries) path place depth pool c := by
  match entries with
  | [] => rfl
  | .literal .. :: rest => exact withoutOffsets_strike rest path _ depth _ c
  | .range m first last :: rest =>
    have hends := withoutOffsets_ends_emit cfg m.offset
      (withoutOffsets_emit first (0 :: place :: path) depth)
      (withoutOffsets_emit last (1 :: place :: path) depth) c
    refine congrArg (note _) (funext fun _ => ?_)
    rw [withoutOffsets_bind, hends]
    exact bind_congr fun r => withoutOffsets_strike rest path _ depth _ r.2.2
  -- Any other entry counts for the class that its text spells, and keeps its text when it is bare.
  | .alternate .. :: rest | .sequence .. :: rest | .group .. :: rest | .quantified .. :: rest
  | .quantifier .. :: rest | .charset .. :: rest | .numeric .. :: rest | .backReference .. :: rest
  | .control .. :: rest | .token .. :: rest | .unknown .. :: rest =>
    exact withoutOffsets_strike rest path _ depth _ c

end

/-- A bare tree has the samples of the tree, but for the offsets in what is reported. -/
theorem withoutOffsets_sample (node : Node) :
    (sample cfg node).withoutOffsets = sample cfg node.bare := by
  unfold sample
  rw [withoutOffsets_bind, withoutOffsets_emit, Node.tag_bare, Node.offset_bare]
  rfl

/-- Trees that are bare in the same way cannot be told apart by their samples: with every source and
under all limits the same calls are made with the same answers, the same text is given or the same
error but for its offset, and the same events happen but for their offsets. -/
theorem run_eq_of_bare_eq {σ : Type} (src : Source σ) {node node' : Node}
    (h : node.bare = node'.bare) (s : σ) :
    let o := (sample cfg node).run src s
    let o' := (sample cfg node').run src s
    o.calls = o'.calls ∧ o.state = o'.state ∧
      o.result.mapError SampleError.withoutOffset = o'.result.mapError SampleError.withoutOffset ∧
      o.events.map Event.withoutOffset = o'.events.map Event.withoutOffset := by
  intro o o'
  have hrun : o.withoutOffsets = o'.withoutOffsets := by
    rw [← run_withoutOffsets, ← run_withoutOffsets, withoutOffsets_sample, withoutOffsets_sample, h]
  have hstate : o.withoutOffsets.state = o'.withoutOffsets.state := by rw [hrun]
  have hresult : o.withoutOffsets.result = o'.withoutOffsets.result := by rw [hrun]
  refine ⟨?_, hstate, hresult, ?_⟩
  · rw [← o.calls_withoutOffsets, hrun, o'.calls_withoutOffsets]
  · rw [← o.events_withoutOffsets, hrun, o'.events_withoutOffsets]

/-- Two groups, a look ahead, a character that is no digit, and the second group again. -/
def Node.apart : Node :=
  .sequence { } [.group { offset := 0 } .capturing (ofChar 'a'),
    .group { offset := 3 } .capturing (ofChar 'b'), .group { } .notAhead (ofChar 'c'),
    .charset { } [.token { text := "\\d" } .digit] true, backTo 2]

/-- The same pattern, with the groups at one offset and other things that make no difference. -/
def Node.clashing : Node :=
  .sequence { } [.group { offset := 7 } .capturing (.literal { text := "a" } 'z' false),
    .group { offset := 7 } .capturing (ofChar 'b'), .group { } .notAhead (backTo 5),
    .charset { } [.unknown { text := "\\d" }] true, backTo 2]

/-- The two patterns are bare in the same way, and the groups of the second are not taken for
one. -/
theorem run_eq_apart_clashing :
    Node.apart.bare = Node.clashing.bare ∧
      ((sample { } .clashing).run Source.lowest ()).result = .ok "ab b" ∧
      let o := (sample { } .apart).run Source.lowest ()
      let o' := (sample { } .clashing).run Source.lowest ()
      o.calls = o'.calls ∧ o.state = o'.state ∧
        o.result.mapError SampleError.withoutOffset = o'.result.mapError SampleError.withoutOffset ∧
        o.events.map Event.withoutOffset = o'.events.map Event.withoutOffset := by
  have hbare : Node.apart.bare = Node.clashing.bare := rfl
  exact ⟨hbare, rfl, run_eq_of_bare_eq { } Source.lowest hbare ()⟩

-- The text of an entry of an inverted set makes a difference, so it stays in a bare tree.
example :
    let outside (text : String) : Node := .oneOf [.token { text } .nonWord] true
    ((sample { } (outside "\\W")).run Source.lowest ()).result = .ok "0" ∧
      ((sample { } (outside "")).run Source.lowest ()).result = .ok " " := ⟨rfl, rfl⟩

end PatternSampler
