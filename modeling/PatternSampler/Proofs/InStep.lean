import Mathlib.Data.List.Forall2
import PatternSampler.Proofs.Levels

/-!
# Samplers in step

Two pattern trees may differ in ways that show in no sample. A walk through one of them then asks
for the same choices as a walk through the other, and writes the same, though the two come by
different places, and one of them may come by more nodes. `Sampler.InStep` is this relation between
computations. It is kept when they are put together, and runs in step make the same calls and end
in the same way (`InStep.run`).

Groups are told apart by their places, so a walk elsewhere captures its texts for other groups. A
`Captures.Link` says which records of captured texts correspond, and it joins two groups if records
that correspond still do so after the groups have been entered or left. A node is sampled at two
places in step, if its groups at the one are joined to those at the other (`writes_emit`).
-/

namespace PatternSampler

namespace Sampler

variable {α β γ δ σ : Type} {about : SampleError → SampleError} {R : α → β → Prop}
  {S : γ → δ → Prop}

/-- Two samplers ask for the same choices, and after the same answers they give values that are
related, or fail with errors about which the same is said. Each may go through events of its
own. -/
inductive InStep (about : SampleError → SampleError) (R : α → β → Prop) :
    Sampler α → Sampler β → Prop where
  | done {a : α} {b : β} (h : R a b) : InStep about R (done a) (done b)
  | fail {e e' : SampleError} (h : about e = about e') : InStep about R (fail e) (fail e')
  /-- Something happens in the first. -/
  | noteLeft {e : Event} {next : Unit → Sampler α} {q : Sampler β}
      (h : InStep about R (next ()) q) : InStep about R (note e next) q
  /-- Something happens in the second. -/
  | noteRight {e : Event} {p : Sampler α} {next : Unit → Sampler β}
      (h : InStep about R p (next ())) : InStep about R p (note e next)
  /-- The same choice is asked for. -/
  | ask {q : Query} {next : q.Answer → Sampler α} {next' : q.Answer → Sampler β}
      (h : ∀ a, InStep about R (next a) (next' a)) : InStep about R (ask q next) (ask q next')

namespace InStep

/-- Events that happen in both may be different. -/
theorem note {e e' : Event} {next : Unit → Sampler α} {next' : Unit → Sampler β}
    (h : InStep about R (next ()) (next' ())) : InStep about R (note e next) (note e' next') :=
  .noteLeft (.noteRight h)

/-- A sampler is in step with itself. -/
theorem refl (p : Sampler α) : InStep about Eq p p := by
  induction p with
  | done a => exact .done rfl
  | fail e => exact .fail rfl
  | note e next ih => exact .note (ih ())
  | ask q next ih => exact .ask ih

/-- Samplers in step are followed by samplers in step. -/
theorem bind {p : Sampler α} {q : Sampler β} {f : α → Sampler γ} {g : β → Sampler δ}
    (h : InStep about R p q) (hf : ∀ a b, R a b → InStep about S (f a) (g b)) :
    InStep about S (p >>= f) (q >>= g) := by
  induction h with
  | done h => exact hf _ _ h
  | fail h => exact .fail h
  | noteLeft _ ih => exact .noteLeft ih
  | noteRight _ ih => exact .noteRight ih
  | ask _ ih => exact .ask ih

/-- The same sampler is followed by samplers in step. -/
theorem bind_right (p : Sampler α) {f : α → Sampler γ} {g : α → Sampler δ}
    (hf : ∀ a, InStep about S (f a) (g a)) : InStep about S (p >>= f) (p >>= g) :=
  (refl p).bind fun a _ h => h ▸ hf a

/-- Steps in step, taken a number of times, are in step. -/
theorem iterate {step : α → Sampler α} {step' : β → Sampler β}
    (h : ∀ a b, R a b → InStep about R (step a) (step' b)) (n : Nat) {a : α} {b : β} (hab : R a b) :
    InStep about R (Sampler.iterate step n a) (Sampler.iterate step' n b) := by
  induction n generalizing a b with
  | zero => exact .done hab
  | succ n ih => exact (h a b hab).bind fun _ _ hab => ih hab

/-- What follows the check of the depth is in step if both nodes pass it or neither does. -/
theorem visit {cfg : Config} {depth depth' : Nat}
    (hlimit : cfg.maxDepth ≤ depth ↔ cfg.maxDepth ≤ depth') {e e' : SampleError}
    (he : about e = about e') {p : Sampler α} {q : Sampler β} (h : InStep about R p q)
    (path path' : Path) :
    InStep about R (if cfg.maxDepth ≤ depth then .fail e else .note (.visit path) fun _ => p)
      (if cfg.maxDepth ≤ depth' then .fail e' else .note (.visit path') fun _ => q) := by
  by_cases hdepth : cfg.maxDepth ≤ depth
  · rw [if_pos hdepth, if_pos (hlimit.mp hdepth)]
    exact .fail he
  · rw [if_neg hdepth, if_neg fun h => hdepth (hlimit.mpr h)]
    exact .note h

end InStep

/-- Two results are related values, or errors about which the same is said. -/
inductive SameEnd (about : SampleError → SampleError) (R : α → β → Prop) :
    Except SampleError α → Except SampleError β → Prop where
  | ok {a : α} {b : β} (h : R a b) : SameEnd about R (.ok a) (.ok b)
  | error {e e' : SampleError} (h : about e = about e') : SameEnd about R (.error e) (.error e')

/-- Runs in step make the same calls, end in the same way, and leave the source in the same
state. -/
theorem InStep.run {p : Sampler α} {q : Sampler β} (h : InStep about R p q) (src : Source σ)
    (s : σ) :
    (p.run src s).calls = (q.run src s).calls ∧ (p.run src s).state = (q.run src s).state ∧
      SameEnd about R (p.run src s).result (q.run src s).result := by
  induction h generalizing s with
  | done h => exact ⟨rfl, rfl, .ok h⟩
  | fail h => exact ⟨rfl, rfl, .error h⟩
  | noteLeft _ ih =>
    rw [calls_run_note, run_note]
    exact ih s
  | noteRight _ ih =>
    rw [calls_run_note, run_note]
    exact ih s
  | ask _ ih =>
    rw [calls_run_ask, calls_run_ask, run_ask, run_ask]
    obtain ⟨hcalls, hrest⟩ := ih _ _
    exact ⟨congrArg _ hcalls, hrest⟩

end Sampler

/-- A relation between records of captured texts, in which the same texts are kept under the same
numbers. -/
structure Captures.Link where
  Holds : Captures Path → Captures Path → Prop
  kept {c c' : Captures Path} : Holds c c' → ∀ number, c.kept number = c'.kept number

namespace Captures.Link

open Sampler

/-- Two groups get the same number, and related records stay so when the groups are entered and
left. -/
structure Joins (k : Link) (group group' : Path) : Prop where
  number {c c' : Captures Path} : k.Holds c c' → (c.entered group).1 = (c'.entered group').1
  entered {c c' : Captures Path} : k.Holds c c' → k.Holds (c.entered group).2 (c'.entered group').2
  keep {c c' : Captures Path} : k.Holds c c' → ∀ number text,
    k.Holds (c.keep number text) (c'.keep number text)

/-- The same has been written on two pages, and their records are related. -/
structure Pages (k : Link) (p p' : Page) : Prop where
  written : p.written = p'.written
  captures : k.Holds p.captures p'.captures

/-- The same value is given with records that are related. -/
structure Pairs {α : Type} (k : Link) (r r' : α × Captures Path) : Prop where
  value : r.1 = r'.1
  captures : k.Holds r.2 r'.2

/-- Two ways to write on a page go in step from related pages on, and leave related pages. -/
def Writes (k : Link) (about : SampleError → SampleError) (write write' : Page → Sampler Page) :
    Prop :=
  ∀ p p', k.Pages p p' → InStep about k.Pages (write p) (write' p')

variable {k : Link} {about : SampleError → SampleError} {p p' : Page} {cfg : Config}
  {path path' : Path} {depth depth' : Nat}

/-- The same character is added to both pages. -/
theorem Pages.push (h : k.Pages p p') (c : Char) : k.Pages (p.push c) (p'.push c) :=
  ⟨congrArg (·.push c) h.written, h.captures⟩

/-- The same text is added to both pages. -/
theorem Pages.append (h : k.Pages p p') (text : String) :
    k.Pages (p.append text) (p'.append text) :=
  ⟨congrArg (· ++ text.toList.toArray) h.written, h.captures⟩

/-- Other records that are related may take the place of those on the pages. -/
theorem Pages.with_captures (h : k.Pages p p') {c c' : Captures Path} (hc : k.Holds c c') :
    k.Pages { p with captures := c } { p' with captures := c' } := ⟨h.written, hc⟩

/-- The pages hold the same text. -/
theorem Pages.text_eq (h : k.Pages p p') : p.text = p'.text := by
  unfold Page.text
  rw [h.written]

/-- Entering a group asks for nothing. -/
theorem inStep_enter {path path' : Path} (hjoin : k.Joins path path') {c c' : Captures Path}
    (hc : k.Holds c c') (offset : UInt64) :
    InStep about k.Pairs (enter path offset c) (enter path' offset c') := by
  have henter (path : Path) (c : Captures Path) :
      ∃ e, enter path offset c = .note e fun _ => .done (c.entered path) := by
    unfold enter Captures.entered
    cases c.number? path with
    | some number => exact ⟨_, rfl⟩
    | none => exact ⟨_, rfl⟩
  obtain ⟨e, he⟩ := henter path c
  obtain ⟨e', he'⟩ := henter path' c'
  rw [he, he']
  exact .note (.done ⟨hjoin.number hc, hjoin.entered hc⟩)

/-- Leaving a group that was entered when as much had been written keeps the same text. -/
theorem inStep_leave {path path' : Path} (hjoin : k.Joins path path') (h : k.Pages p p')
    (number start : Nat) :
    InStep about k.Pages (leave path number start p) (leave path' number start p') := by
  have hsince : p.since start = p'.since start := by
    unfold Page.since
    rw [h.written]
  unfold leave
  rw [hsince]
  exact .note (.done (h.with_captures (hjoin.keep h.captures number _)))

/-- A leaf without content adds the same. -/
theorem inStep_token (offset : UInt64) (kind : Token) (h : k.Pages p p') :
    InStep about k.Pages (token offset kind p) (token offset kind p') := by
  have hpool (pool : List Char) :
      InStep about k.Pages (pickChar offset pool >>= fun c => pure (p.push c))
        (pickChar offset pool >>= fun c => pure (p'.push c)) :=
    .bind_right _ fun c => .done (h.push c)
  cases kind with
  | anyCharacter => exact .bind_right character fun c => .done (h.push c)
  | lineFeed => exact .done (h.push '\n')
  | digit | nonDigit | whiteSpace | nonWhiteSpace | word | nonWord => exact hpool _
  | _ => exact .done h

/-- The ends of a range are written in step, and give the same character, if writing goes in
step. -/
theorem inStep_endpoint {offset offset' : UInt64}
    (hoffset : ∀ got, about (.invalidRangeEndpoint offset got) =
      about (.invalidRangeEndpoint offset' got))
    {write write' : Page → Sampler Page} (h : k.Writes about write write') {c c' : Captures Path}
    (hc : k.Holds c c') :
    InStep about k.Pairs (endpoint offset write c) (endpoint offset' write' c') := by
  refine (h { captures := c } { captures := c' } ⟨rfl, hc⟩).bind fun p p' hp => ?_
  rw [hp.written, hp.text_eq]
  split
  · exact .done ⟨rfl, hp.captures⟩
  · exact .fail (hoffset _)

/-- The ends of a range in step are the same characters, in order or not. -/
theorem inStep_ends (offset : UInt64)
    {first first' last last' : Captures Path → Sampler (Char × Captures Path)}
    (hfirst : ∀ c c', k.Holds c c' → InStep about k.Pairs (first c) (first' c'))
    (hlast : ∀ c c', k.Holds c c' → InStep about k.Pairs (last c) (last' c'))
    {c c' : Captures Path} (hc : k.Holds c c') :
    InStep about (fun r r' => r.1 = r'.1 ∧ k.Pairs r.2 r'.2) (ends offset first last c)
      (ends offset first' last' c') := by
  refine (hfirst c c' hc).bind fun r r' hr => (hlast _ _ hr.captures).bind fun t t' ht => ?_
  dsimp only
  rw [hr.value, ht.value]
  split
  · exact .fail rfl
  · exact .done ⟨rfl, rfl, ht.captures⟩

/-- Branches that are written in step. -/
theorem Writes.alternate (hlimit : cfg.maxDepth ≤ depth ↔ cfg.maxDepth ≤ depth') (m : Mark)
    {l l' r r' : Node}
    (hl : k.Writes about (emit cfg l (0 :: path) (depth + 1))
      (emit cfg l' (0 :: path') (depth' + 1)))
    (hr : k.Writes about (emit cfg r (1 :: path) (depth + 1))
      (emit cfg r' (1 :: path') (depth' + 1))) :
    k.Writes about (emit cfg (.alternate m l r) path depth)
      (emit cfg (.alternate m l' r') path' depth') := by
  intro p p' hp
  unfold emit
  refine InStep.visit hlimit rfl (.bind_right _ fun b => ?_) path path'
  cases b with
  | true => exact hl p p' hp
  | false => exact hr p p' hp

/-- Rows of items that are written in step. -/
theorem Writes.sequence (hlimit : cfg.maxDepth ≤ depth ↔ cfg.maxDepth ≤ depth') (m m' : Mark)
    (he : about (.tooDeep m.offset cfg.maxDepth) = about (.tooDeep m'.offset cfg.maxDepth))
    {body body' : List Node}
    (hbody : k.Writes about (emitAll cfg body path 0 (depth + 1))
      (emitAll cfg body' path' 0 (depth' + 1))) :
    k.Writes about (emit cfg (.sequence m body) path depth)
      (emit cfg (.sequence m' body') path' depth') := by
  intro p p' hp
  unfold emit
  exact InStep.visit hlimit he (hbody p p' hp) path path'

/-- Groups whose bodies are written in step. -/
theorem Writes.group (hlimit : cfg.maxDepth ≤ depth ↔ cfg.maxDepth ≤ depth') (m : Mark)
    (style : GroupStyle) {body body' : Node} (hjoin : style = .capturing → k.Joins path path')
    (hbody : k.Writes about (emit cfg body (0 :: path) (depth + 1))
      (emit cfg body' (0 :: path') (depth' + 1))) :
    k.Writes about (emit cfg (.group m style body) path depth)
      (emit cfg (.group m style body') path' depth') := by
  intro p p' hp
  unfold emit
  refine InStep.visit hlimit rfl ?_ path path'
  cases style with
  | capturing =>
    refine (inStep_enter (hjoin rfl) hp.captures m.offset).bind fun r r' hr => ?_
    refine (hbody _ _ (hp.with_captures hr.captures)).bind fun q q' hq => ?_
    rw [hr.value, hp.written]
    exact inStep_leave (hjoin rfl) hq r'.1 _
  | plain | ahead => exact hbody p p' hp
  | notAhead => exact .done hp

/-- Repetitions of bodies that are written in step, if the counts are asked for in the same way. -/
theorem Writes.quantified (hlimit : cfg.maxDepth ≤ depth ↔ cfg.maxDepth ≤ depth') (m : Mark)
    {body body' q q' : Node} (hcount : count cfg q = count cfg q')
    (hbody : k.Writes about (emit cfg body (0 :: path) (depth + 1))
      (emit cfg body' (0 :: path') (depth' + 1))) :
    k.Writes about (emit cfg (.quantified m body q) path depth)
      (emit cfg (.quantified m body' q') path' depth') := by
  intro p p' hp
  unfold emit
  refine InStep.visit hlimit rfl ?_ path path'
  dsimp only
  rw [hcount]
  exact .bind_right _ fun n => .iterate hbody n hp

/-- Sets of as many members, which are written in step. -/
theorem Writes.charset (hlimit : cfg.maxDepth ≤ depth ↔ cfg.maxDepth ≤ depth') (m : Mark)
    {body body' : List Node} (hlength : body.length = body'.length)
    (hbody : ∀ i, k.Writes about (emitNth cfg m.offset body path 0 i (depth + 1))
      (emitNth cfg m.offset body' path' 0 i (depth' + 1))) :
    k.Writes about (emit cfg (.charset m body false) path depth)
      (emit cfg (.charset m body' false) path' depth') := by
  intro p p' hp
  unfold emit
  refine InStep.visit hlimit rfl ?_ path path'
  dsimp only
  rw [hlength]
  refine .bind_right _ fun i => ?_
  cases i with
  | none => exact .fail rfl
  | some i => exact hbody i p p' hp

/-- Inverted sets whose entries leave the same of the pool, in step. -/
theorem Writes.inverted (hlimit : cfg.maxDepth ≤ depth ↔ cfg.maxDepth ≤ depth') (m : Mark)
    {entries entries' : List Node}
    (hentries : ∀ pool c c', k.Holds c c' →
      InStep about k.Pairs (strike cfg entries path 0 (depth + 1) pool c)
        (strike cfg entries' path' 0 (depth' + 1) pool c')) :
    k.Writes about (emit cfg (.charset m entries true) path depth)
      (emit cfg (.charset m entries' true) path' depth') := by
  intro p p' hp
  unfold emit
  refine InStep.visit hlimit rfl ((hentries _ _ _ hp.captures).bind fun r r' hr => ?_) path path'
  dsimp only
  rw [hr.value]
  exact .bind_right _ fun c => .done ((hp.with_captures hr.captures).push c)

/-- Ranges whose ends are written in step. -/
theorem Writes.range (hlimit : cfg.maxDepth ≤ depth ↔ cfg.maxDepth ≤ depth') (m : Mark)
    {first first' last last' : Node}
    (hends : ∀ c c', k.Holds c c' → InStep about (fun r r' => r.1 = r'.1 ∧ k.Pairs r.2 r'.2)
      (ends m.offset (endpoint first.offset (emit cfg first (0 :: path) (depth + 1)))
        (endpoint last.offset (emit cfg last (1 :: path) (depth + 1))) c)
      (ends m.offset (endpoint first'.offset (emit cfg first' (0 :: path') (depth' + 1)))
        (endpoint last'.offset (emit cfg last' (1 :: path') (depth' + 1))) c')) :
    k.Writes about (emit cfg (.range m first last) path depth)
      (emit cfg (.range m first' last') path' depth') := by
  intro p p' hp
  unfold emit
  refine InStep.visit hlimit rfl ((hends _ _ hp.captures).bind fun r r' hr => ?_) path path'
  dsimp only
  rw [hr.1, hr.2.value]
  refine .bind_right _ fun value => .bind_right _ fun c => .done ?_
  exact (hp.with_captures hr.2.captures).push c

end Captures.Link

namespace Config

variable {cfg : Config} {height height' depth depth' : Nat}

/-- A node of a given height is too deep at both of two depths or at neither, and so is every node
below it: the depths are the same, or there is room for all of these nodes at both. -/
def SameRoom (cfg : Config) (height depth depth' : Nat) : Prop :=
  depth = depth' ∨ (depth + height ≤ cfg.maxDepth ∧ depth' + height ≤ cfg.maxDepth)

/-- There is as much room for a node that is not higher. -/
theorem SameRoom.mono (h : cfg.SameRoom height depth depth') (hle : height' ≤ height) :
    cfg.SameRoom height' depth depth' := by
  unfold SameRoom at h ⊢
  omega

/-- There is as much room for a node below. -/
theorem SameRoom.below (h : cfg.SameRoom height depth depth') (hlt : height' < height) :
    cfg.SameRoom height' (depth + 1) (depth' + 1) := by
  unfold SameRoom at h ⊢
  omega

/-- A node is too deep at both depths or at neither. -/
theorem SameRoom.limit {n : Node} (h : cfg.SameRoom n.height depth depth') :
    cfg.maxDepth ≤ depth ↔ cfg.maxDepth ≤ depth' := by
  have hpos := n.height_pos
  unfold SameRoom at h
  omega

end Config

/-- Of two lists that are related one by one, the parts of the same lengths are. -/
theorem forall₂_of_append {α β : Type} {R : α → β → Prop} {as bs : List α} {as' bs' : List β}
    (h : List.Forall₂ R (as ++ bs) (as' ++ bs')) (hlength : as.length = as'.length) :
    List.Forall₂ R as as' ∧ List.Forall₂ R bs bs' := by
  have htake := List.forall₂_take_append _ _ _ h
  have hdrop := List.forall₂_drop_append _ _ _ h
  rw [List.take_left' hlength] at htake
  rw [List.drop_left' hlength] at hdrop
  exact ⟨htake, hdrop⟩

namespace Node

/-- How many groups are in a tree does not depend on its place. -/
theorem length_groupPlaces (n : Node) (path path' : Path) :
    (n.groupPlaces path).length = (n.groupPlaces path').length := by
  have hmap (path : Path) : (n.groupPlaces path).length = (n.groupPlaces []).length := by
    have happend := n.groupPlaces_append [] path
    rw [List.nil_append] at happend
    rw [happend, List.length_map]
  rw [hmap path, hmap path']

end Node

section Walk

open Sampler Captures.Link

variable {k : Captures.Link} {about : SampleError → SampleError} {cfg : Config}

/-- The ends of a range are given in step if each end is written in step. -/
theorem inStep_ends_emit (offset : UInt64) {first first' last last' : Node} {path path' : Path}
    {depth depth' : Nat}
    (hfirst : k.Writes about (emit cfg first (0 :: path) depth)
      (emit cfg first' (0 :: path') depth'))
    (hlast : k.Writes about (emit cfg last (1 :: path) depth)
      (emit cfg last' (1 :: path') depth'))
    (hgot : ∀ got, about (.invalidRangeEndpoint first.offset got) =
      about (.invalidRangeEndpoint first'.offset got))
    (hgot' : ∀ got, about (.invalidRangeEndpoint last.offset got) =
      about (.invalidRangeEndpoint last'.offset got)) (c c' : Captures Path) (hc : k.Holds c c') :
    InStep about (fun r r' => r.1 = r'.1 ∧ k.Pairs r.2 r'.2)
      (ends offset (endpoint first.offset (emit cfg first (0 :: path) depth))
        (endpoint last.offset (emit cfg last (1 :: path) depth)) c)
      (ends offset (endpoint first'.offset (emit cfg first' (0 :: path') depth'))
        (endpoint last'.offset (emit cfg last' (1 :: path') depth')) c') :=
  inStep_ends offset (fun _ _ hc => inStep_endpoint hgot hfirst hc)
    (fun _ _ hc => inStep_endpoint hgot' hlast hc) hc

/-- Ranges in step strike out the same. -/
theorem inStep_strike_range (m : Mark) {first first' last last' : Node} {rest rest' : List Node}
    {path path' : Path} {place place' depth depth' : Nat}
    (hends : ∀ c c', k.Holds c c' → InStep about (fun r r' => r.1 = r'.1 ∧ k.Pairs r.2 r'.2)
      (ends m.offset (endpoint first.offset (emit cfg first (0 :: place :: path) depth))
        (endpoint last.offset (emit cfg last (1 :: place :: path) depth)) c)
      (ends m.offset (endpoint first'.offset (emit cfg first' (0 :: place' :: path') depth'))
        (endpoint last'.offset (emit cfg last' (1 :: place' :: path') depth')) c'))
    (hrest : ∀ pool c c', k.Holds c c' →
      InStep about k.Pairs (strike cfg rest path (place + 1) depth pool c)
        (strike cfg rest' path' (place' + 1) depth' pool c'))
    (pool : List Char) (c c' : Captures Path) (hc : k.Holds c c') :
    InStep about k.Pairs (strike cfg (.range m first last :: rest) path place depth pool c)
      (strike cfg (.range m first' last' :: rest') path' place' depth' pool c') := by
  refine .note (Sampler.InStep.bind (hends c c' hc) fun r r' hr => ?_)
  dsimp only
  rw [hr.1, hr.2.value]
  exact hrest _ _ _ hr.2.captures

mutual

/-- A node is written in step at two places, if its groups there are joined and there is as much
room. -/
theorem writes_emit (n : Node) {path path' : Path} {depth depth' : Nat}
    (hroom : cfg.SameRoom n.height depth depth')
    (hjoin : List.Forall₂ k.Joins (n.groupPlaces path) (n.groupPlaces path')) :
    k.Writes about (emit cfg n path depth) (emit cfg n path' depth') := by
  have hbelow {child : Node} {i : Nat} (hchild : n.child? i = some child) :
      cfg.SameRoom child.height (depth + 1) (depth' + 1) :=
    hroom.below (Node.height_child_lt hchild)
  match n with
  | .alternate m l r =>
    obtain ⟨hl, hr⟩ := forall₂_of_append hjoin (l.length_groupPlaces _ _)
    exact .alternate hroom.limit m (writes_emit l (hbelow (i := 0) rfl) hl)
      (writes_emit r (hbelow (i := 1) rfl) hr)
  | .sequence m body =>
    exact .sequence hroom.limit m m rfl
      (writes_emitAll body (hroom.below (Nat.lt_succ_self _)) hjoin)
  | .group m .capturing body =>
    obtain ⟨hgroup, hbody⟩ := List.forall₂_cons.mp hjoin
    exact .group hroom.limit m .capturing (fun _ => hgroup)
      (writes_emit body (hbelow (i := 0) rfl) hbody)
  | .group m .plain body | .group m .ahead body | .group m .notAhead body =>
    exact .group hroom.limit m _ nofun (writes_emit body (hbelow (i := 0) rfl) hjoin)
  | .quantified m body q =>
    -- Groups below the quantifier are never entered.
    obtain ⟨hbody, -⟩ := forall₂_of_append hjoin (body.length_groupPlaces _ _)
    exact .quantified hroom.limit m rfl (writes_emit body (hbelow (i := 0) rfl) hbody)
  | .charset m body true =>
    exact .inverted hroom.limit m
      fun pool c c' hc => inStep_strike body (hroom.below (Nat.lt_succ_self _)) hjoin pool c c' hc
  | .charset m body false =>
    exact .charset hroom.limit m rfl
      fun i => writes_emitNth body (hroom.below (Nat.lt_succ_self _)) hjoin m.offset i
  | .range m first last =>
    obtain ⟨hfirst, hlast⟩ := forall₂_of_append hjoin (first.length_groupPlaces _ _)
    exact .range hroom.limit m (inStep_ends_emit m.offset
      (writes_emit first (hbelow (i := 0) rfl) hfirst)
      (writes_emit last (hbelow (i := 1) rfl) hlast) (fun _ => rfl) fun _ => rfl)
  | .quantifier m bounds isGreedy =>
    intro p p' hp
    unfold emit
    exact InStep.visit hroom.limit rfl (.done hp) path path'
  | .literal m c isEscaped =>
    intro p p' hp
    unfold emit
    refine InStep.visit hroom.limit rfl (.done ?_) path path'
    cases isEscaped with
    | true => exact hp.push c
    | false => exact hp.append m.text
  | .numeric m form code =>
    intro p p' hp
    unfold emit
    exact InStep.visit hroom.limit rfl (.bind_right _ fun c => .done (hp.push c)) path path'
  | .backReference m code =>
    intro p p' hp
    unfold emit
    refine InStep.visit hroom.limit rfl ?_ path path'
    dsimp only
    rw [k.kept hp.captures]
    exact .note (.done (hp.append _))
  | .control m code =>
    intro p p' hp
    unfold emit
    refine InStep.visit hroom.limit rfl ?_ path path'
    dsimp only
    split
    · exact .done (hp.push _)
    · exact .fail rfl
  | .token m kind =>
    intro p p' hp
    unfold emit
    exact InStep.visit hroom.limit rfl (inStep_token m.offset kind hp) path path'
  | .unknown m =>
    intro p p' hp
    unfold emit
    exact InStep.visit hroom.limit rfl (.done (hp.append m.text)) path path'

/-- Nodes in a row are written in step at two places. -/
theorem writes_emitAll (nodes : List Node) {path path' : Path}
    {place place' depth depth' : Nat}
    (hroom : cfg.SameRoom (Node.heightAll nodes) depth depth')
    (hjoin : List.Forall₂ k.Joins (Node.groupPlacesAll nodes path place)
      (Node.groupPlacesAll nodes path' place')) :
    k.Writes about (emitAll cfg nodes path place depth)
      (emitAll cfg nodes path' place' depth') := by
  intro p p' hp
  match nodes with
  | [] => exact .done hp
  | n :: ns =>
    obtain ⟨hn, hns⟩ := forall₂_of_append hjoin (n.length_groupPlaces _ _)
    exact (writes_emit n (hroom.mono (Nat.le_max_left _ _)) hn p p' hp).bind
      (writes_emitAll ns (hroom.mono (Nat.le_max_right _ _)) hns)

/-- A member of a set is written in step at two places. -/
theorem writes_emitNth (nodes : List Node) {path path' : Path}
    {place place' depth depth' : Nat}
    (hroom : cfg.SameRoom (Node.heightAll nodes) depth depth')
    (hjoin : List.Forall₂ k.Joins (Node.groupPlacesAll nodes path place)
      (Node.groupPlacesAll nodes path' place')) (offset : UInt64) (i : Nat) :
    k.Writes about (emitNth cfg offset nodes path place i depth)
      (emitNth cfg offset nodes path' place' i depth') := by
  match nodes, i with
  | [], _ => exact fun _ _ _ => .fail rfl
  | n :: ns, i =>
    obtain ⟨hn, hns⟩ := forall₂_of_append hjoin (n.length_groupPlaces _ _)
    cases i with
    | zero => exact writes_emit n (hroom.mono (Nat.le_max_left _ _)) hn
    | succ i => exact writes_emitNth ns (hroom.mono (Nat.le_max_right _ _)) hns offset i

/-- The entries of an inverted set leave the same of a pool at two places. -/
theorem inStep_strike (entries : List Node) {path path' : Path}
    {place place' depth depth' : Nat}
    (hroom : cfg.SameRoom (Node.heightAll entries) depth depth')
    (hjoin : List.Forall₂ k.Joins (Node.groupPlacesAll entries path place)
      (Node.groupPlacesAll entries path' place')) (pool : List Char) (c c' : Captures Path)
    (hc : k.Holds c c') :
    InStep about k.Pairs (strike cfg entries path place depth pool c)
      (strike cfg entries path' place' depth' pool c') := by
  match entries with
  | [] => exact .done ⟨rfl, hc⟩
  | .range m first last :: rest =>
    obtain ⟨hentry, hrest⟩ := forall₂_of_append hjoin (Node.length_groupPlaces _ _ _)
    obtain ⟨hfirst, hlast⟩ := forall₂_of_append hentry (first.length_groupPlaces _ _)
    -- The ends are as deep as the range.
    have hheight := hroom.mono (Nat.le_max_left (Node.range m first last).height _)
    exact inStep_strike_range m (inStep_ends_emit m.offset
      (writes_emit first (hheight.mono (Nat.le_of_lt (Node.height_child_lt (i := 0) rfl))) hfirst)
      (writes_emit last (hheight.mono (Nat.le_of_lt (Node.height_child_lt (i := 1) rfl))) hlast)
      (fun _ => rfl) fun _ => rfl)
      (inStep_strike rest (hroom.mono (Nat.le_max_right _ _)) hrest) pool c c' hc
  | .literal m x isEscaped :: rest =>
    exact inStep_strike rest (hroom.mono (Nat.le_max_right _ _)) hjoin _ c c' hc
  | .alternate .. :: rest | .sequence .. :: rest | .group .. :: rest | .quantified .. :: rest
  | .quantifier .. :: rest | .charset .. :: rest | .numeric .. :: rest | .backReference .. :: rest
  | .control .. :: rest | .token .. :: rest | .unknown .. :: rest =>
    exact inStep_strike rest (hroom.mono (Nat.le_max_right _ _))
      (forall₂_of_append hjoin (Node.length_groupPlaces _ _ _)).2 _ c c' hc

end

end Walk

end PatternSampler
