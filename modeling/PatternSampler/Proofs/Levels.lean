import PatternSampler.Pattern.Build
import PatternSampler.Proofs.Places
import PatternSampler.Proofs.Progress

/-!
# How deep a run goes

Before a node is evaluated, the number of nodes above it is held against the limit on nesting. There
is one exception: an inverted set has the ends of its ranges evaluated as if each end stood in the
place of its range. So every such range above a node lets the node lie one deeper than the limit
says. `Node.struckAbove` counts them, and `Node.Stands` is the invariant that a walk through a
pattern carries: the depth that it counts and the ranges together make the length of the path.

`Sampler.KeepsTo` says of a computation, whatever it is answered, that it visits nothing below the
limit unless it gives up at once, and that it gives up only at a node that is too deep. The walk
keeps to its limit (`keepsTo_emit`). Runs therefore stay above it (`length_lt_of_visit`), and a
pattern that is not too high has no run that gives up (`not_isTooDeep_of_height_le`).
-/

namespace PatternSampler

namespace Node

/-- Whether the node at a place is a range among the entries of an inverted set. -/
def isStruck (root : Node) : Path → Bool
  | [] => false
  | i :: path =>
    match root.at? path, root.at? (i :: path) with
    | some (.charset _ _ true), some (.range ..) => true
    | _, _ => false

/-- How many of the nodes above a place are ranges among the entries of an inverted set. -/
def struckAbove (root : Node) : Path → Nat
  | [] => 0
  | _ :: path => root.struckAbove path + if root.isStruck path then 1 else 0

/-- A node stands at a place, and the depth there is the number of nodes above it without those
ranges among them that are entries of inverted sets. The node is not such a range itself. -/
structure Stands (root node : Node) (path : Path) (depth : Nat) : Prop where
  found : root.at? path = some node
  notStruck : root.isStruck path = false
  level : path.length = depth + root.struckAbove path

/-- The whole pattern stands at its root. -/
theorem stands_root (root : Node) : root.Stands root [] 0 := ⟨rfl, rfl, rfl⟩

namespace Stands

variable {root parent n : Node} {path : Path} {depth i j : Nat}

/-- A child stands one deeper than its parent, if it is not an entry of an inverted set. -/
theorem child (h : root.Stands parent path depth) (hi : parent.child? i = some n)
    (hparent : ∀ mark body, parent ≠ .charset mark body true) :
    root.Stands n (i :: path) (depth + 1) := by
  have hn : root.at? (i :: path) = some n := (at_child h.found i).trans hi
  have hstruck : root.isStruck (i :: path) = false := by
    simp only [isStruck, h.found]
    split
    · next heq _ => exact absurd (Option.some.inj heq) (hparent _ _)
    · rfl
  have habove : root.struckAbove (i :: path) = root.struckAbove path := by
    rw [struckAbove, h.notStruck]
    rfl
  refine ⟨hn, hstruck, ?_⟩
  rw [habove, List.length_cons, h.level]
  omega

/-- A range that is an entry of an inverted set is found below the set, and is struck. -/
theorem struck {mark : Mark} {body : List Node} {m : Mark} {first last : Node}
    (h : root.Stands (.charset mark body true) path depth)
    (hi : body[i]? = some (.range m first last)) :
    root.at? (i :: path) = some (.range m first last) ∧ root.isStruck (i :: path) = true ∧
      root.struckAbove (i :: path) = root.struckAbove path := by
  have hrange : root.at? (i :: path) = some (.range m first last) := (at_child h.found i).trans hi
  refine ⟨hrange, ?_, ?_⟩
  · simp only [isStruck, h.found, hrange]
  · rw [struckAbove, h.notStruck]
    rfl

/-- An end of such a range stands only one deeper than the set. -/
theorem struckEnd {mark : Mark} {body : List Node} {m : Mark} {first last : Node}
    (h : root.Stands (.charset mark body true) path depth)
    (hi : body[i]? = some (.range m first last))
    (hj : (Node.range m first last).child? j = some n) :
    root.Stands n (j :: i :: path) (depth + 1) := by
  obtain ⟨hrange, hstruck, habove⟩ := h.struck hi
  have hn : root.at? (j :: i :: path) = some n := (at_child hrange j).trans hj
  have hend : root.isStruck (j :: i :: path) = false := by
    simp only [isStruck, hrange]
  have hlevel : root.struckAbove (j :: i :: path) = root.struckAbove path + 1 := by
    rw [struckAbove, hstruck, habove]
    rfl
  refine ⟨hn, hend, ?_⟩
  rw [hlevel, List.length_cons, List.length_cons, h.level]
  omega

end Stands

/-- Without ranges in inverted sets, none are above a place. -/
theorem struckAbove_eq_zero {root : Node} (h : ∀ path, root.isStruck path = false) (path : Path) :
    root.struckAbove path = 0 := by
  induction path with
  | nil => rfl
  | cons i path ih =>
    rw [struckAbove, ih, h]
    rfl

/-- Each of some nodes in a row is no higher than the highest. -/
theorem height_le_heightAll {nodes : List Node} {i : Nat} {n : Node} (h : nodes[i]? = some n) :
    n.height ≤ heightAll nodes := by
  induction nodes generalizing i with
  | nil => cases h
  | cons first rest ih =>
    rw [heightAll]
    cases i with
    | zero =>
      cases h
      exact Nat.le_max_left _ _
    | succ i => exact Nat.le_trans (ih h) (Nat.le_max_right _ _)

/-- A child is less high than its parent. -/
theorem height_child_lt {parent n : Node} {i : Nat} (h : parent.child? i = some n) :
    n.height < parent.height := by
  match parent, i, h with
  | .alternate _ l r, 0, rfl | .quantified _ l r, 0, rfl | .range _ l r, 0, rfl =>
    exact Nat.lt_succ_of_le (Nat.le_max_left _ _)
  | .alternate _ l r, 1, rfl | .quantified _ l r, 1, rfl | .range _ l r, 1, rfl =>
    exact Nat.lt_succ_of_le (Nat.le_max_right _ _)
  | .group _ _ _, 0, rfl => exact Nat.lt_succ_self _
  | .sequence .., _, h | .charset .., _, h => exact Nat.lt_succ_of_le (height_le_heightAll h)

/-- A place in a tree and the node there are together no longer than the tree is high. -/
theorem length_add_height_le {root n : Node} {path : Path} (h : root.at? path = some n) :
    path.length + n.height ≤ root.height := by
  induction path generalizing n with
  | nil =>
    cases h
    exact Nat.le_of_eq (Nat.zero_add _)
  | cons i path ih =>
    obtain ⟨parent, hparent, hchild⟩ := Option.bind_eq_some_iff.mp h
    have hle := ih hparent
    have hlt := height_child_lt hchild
    rw [List.length_cons]
    omega

end Node

/-- A visit is allowed at places of a tree that are not too deep, and any other event is. -/
def Event.IsAllowed (root : Node) (limit : Nat) : Event → Prop
  | .visit path =>
    (∃ n, root.at? path = some n) ∧ path.length < limit + root.struckAbove path
  | _ => True

/-- The error that a node is too deep is due if there is a node in the tree that is, and any other
error is. -/
def SampleError.IsDue (root : Node) (limit : Nat) : SampleError → Prop
  | .tooDeep offset l => l = limit ∧ ∃ path n, root.at? path = some n ∧ n.offset = offset ∧
    limit + root.struckAbove path ≤ path.length
  | _ => True

/-- A run ends because a node is too deep. -/
def Outcome.IsTooDeep {σ α : Type} (o : Outcome σ α) : Prop :=
  ∃ offset limit, o.result = .error (.tooDeep offset limit)

namespace Sampler

variable {α β σ : Type}

/-- Whatever it is answered, a sampler visits only places of a tree where that is allowed, unless it
gives up right after the visit because a node is too deep. When it gives up so, that is due. -/
def KeepsTo (root : Node) (limit : Nat) : Sampler α → Prop
  | done _ => True
  | fail e => e.IsDue root limit
  | note e next =>
    (e.IsAllowed root limit ∨ ∃ offset, next () = fail (.tooDeep offset limit)) ∧
      (next ()).KeepsTo root limit
  | ask _ next => ∀ a, (next a).KeepsTo root limit

variable {root : Node} {limit : Nat} {p : Sampler α}

/-- A value keeps to every limit. -/
theorem keepsTo_pure (a : α) : (pure a : Sampler α).KeepsTo root limit := trivial

/-- Two samplers in a row keep to a limit if both do. -/
theorem KeepsTo.bind {f : α → Sampler β} (hp : p.KeepsTo root limit)
    (hf : ∀ a, (f a).KeepsTo root limit) : (p >>= f).KeepsTo root limit := by
  induction p with
  | done a => exact hf a
  | fail e => exact hp
  | note e next ih =>
    obtain ⟨hallowed, hnext⟩ := hp
    refine ⟨hallowed.imp_right ?_, ih () hnext⟩
    rintro ⟨offset, hfail⟩
    refine ⟨offset, ?_⟩
    show next () >>= f = _
    rw [hfail, fail_bind]
  | ask q next ih => exact fun a => ih a (hp a)

/-- A step that keeps to a limit does so when it is taken a number of times. -/
theorem keepsTo_iterate {step : α → Sampler α} (h : ∀ a, (step a).KeepsTo root limit) (n : Nat)
    (a : α) : (iterate step n a).KeepsTo root limit := by
  induction n generalizing a with
  | zero => exact keepsTo_pure a
  | succ n ih => exact (h a).bind ih

/-- A visit in a run that does not end because a node is too deep is allowed. -/
theorem KeepsTo.visit (hp : p.KeepsTo root limit) {src : Source σ} {s : σ} {path : Path}
    (hdeep : ¬(p.run src s).IsTooDeep) (hvisit : .visit path ∈ (p.run src s).events) :
    Event.IsAllowed root limit (.visit path) := by
  induction p generalizing s with
  | done a => cases hvisit
  | fail e => cases hvisit
  | note e next ih =>
    obtain ⟨hallowed, hnext⟩ := hp
    rw [events_run_note] at hvisit
    unfold Outcome.IsTooDeep at hdeep
    rw [run_note] at hdeep
    rcases List.mem_cons.mp hvisit with rfl | hvisit
    · refine hallowed.resolve_right ?_
      rintro ⟨offset, hfail⟩
      rw [hfail] at hdeep
      exact hdeep ⟨offset, limit, rfl⟩
    · exact ih () hnext hdeep hvisit
  | ask q next ih =>
    rw [events_run_ask] at hvisit
    unfold Outcome.IsTooDeep at hdeep
    rw [run_ask] at hdeep
    exact ih _ (hp _) hdeep hvisit

/-- The error that a run ends with is due. -/
theorem KeepsTo.due (hp : p.KeepsTo root limit) {src : Source σ} {s : σ} {e : SampleError}
    (he : (p.run src s).result = .error e) : e.IsDue root limit := by
  induction p generalizing s with
  | done a => cases he
  | fail e' =>
    cases he
    exact hp
  | note e' next ih =>
    rw [run_note] at he
    exact ih () hp.2 he
  | ask q next ih =>
    rw [run_ask] at he
    exact ih _ (hp _) he

/-- A choice of an index visits nothing and does not fail. -/
theorem keepsTo_index (n : Nat) : (index n).KeepsTo root limit := by
  unfold index
  split
  · exact fun _ => trivial
  · trivial

/-- A choice from a pool fails only for another reason. -/
theorem keepsTo_pickChar (offset : UInt64) (pool : List Char) :
    (pickChar offset pool).KeepsTo root limit := by
  have hpick : (pick pool).KeepsTo root limit := (keepsTo_index _).bind fun _ => trivial
  refine hpick.bind fun c => ?_
  cases c with
  | none => trivial
  | some c => trivial

/-- A choice of a count fails only for another reason. -/
theorem keepsTo_count (cfg : Config) (quantifier : Node) :
    (count cfg quantifier).KeepsTo root limit := by
  have hwithin (offset : UInt64) (least most : Int) :
      (countWithin offset least most).KeepsTo root limit := by
    unfold countWithin
    split
    · exact fun _ => trivial
    · trivial
  unfold count
  split
  · split
    · exact hwithin _ _ _
    · have hextra : (integer cfg.leastExtra cfg.mostExtra).KeepsTo root limit := fun _ => trivial
      refine hextra.bind fun extra => ?_
      dsimp only
      split
      · trivial
      · exact ⟨.inl trivial, hwithin _ _ _⟩
  · trivial

/-- A choice of a code point visits nothing and does not fail. -/
theorem keepsTo_between (first last : Char) : (between first last).KeepsTo root limit := by
  unfold between
  split
  · exact fun _ => trivial
  · exact fun _ => trivial

/-- A code point that is no character is another reason to fail. -/
theorem keepsTo_scalar (offset : UInt64) (value : UInt32) :
    (ofExcept (scalar offset value)).KeepsTo root limit := by
  unfold scalar
  split
  · trivial
  · trivial

/-- A code that is no numeral of its base is another reason to fail. -/
theorem keepsTo_escaped (offset : UInt64) (form : EscapeForm) (code : String) :
    (ofExcept (escaped offset form code)).KeepsTo root limit := by
  unfold escaped
  split
  · exact keepsTo_scalar offset _
  · trivial

/-- A leaf without content fails only for another reason. -/
theorem keepsTo_token (offset : UInt64) (kind : Token) (p : Page) :
    (token offset kind p).KeepsTo root limit := by
  have hpool (pool : List Char) :
      (pickChar offset pool >>= fun c => pure (p.push c)).KeepsTo root limit :=
    (keepsTo_pickChar offset pool).bind fun _ => trivial
  cases kind with
  | anyCharacter => exact fun _ => trivial
  | digit | nonDigit | whiteSpace | nonWhiteSpace | word | nonWord => exact hpool _
  | _ => trivial

/-- Entering a group visits nothing and does not fail. -/
theorem keepsTo_enter (path : Path) (offset : UInt64) (captures : Captures Path) :
    (enter path offset captures).KeepsTo root limit := by
  unfold enter
  split
  · exact ⟨.inl trivial, trivial⟩
  · exact ⟨.inl trivial, trivial⟩

/-- Leaving a group visits nothing and does not fail. -/
theorem keepsTo_leave (path : Path) (number start : Nat) (p : Page) :
    (leave path number start p).KeepsTo root limit := ⟨.inl trivial, trivial⟩

/-- An end of a range keeps to a limit if writing it does. -/
theorem keepsTo_endpoint (offset : UInt64) {write : Page → Sampler Page}
    (h : ∀ p, (write p).KeepsTo root limit) (captures : Captures Path) :
    (endpoint offset write captures).KeepsTo root limit := by
  refine (h _).bind fun p => ?_
  split
  · trivial
  · trivial

/-- The ends of a range keep to a limit if each does. -/
theorem keepsTo_ends (offset : UInt64) {first last : Captures Path → Sampler (Char × Captures Path)}
    (hfirst : ∀ c, (first c).KeepsTo root limit) (hlast : ∀ c, (last c).KeepsTo root limit)
    (captures : Captures Path) : (ends offset first last captures).KeepsTo root limit := by
  refine (hfirst _).bind fun r => (hlast _).bind fun r' => ?_
  dsimp only
  split
  · trivial
  · trivial

end Sampler

section Walk

open Sampler

variable {root : Node} {cfg : Config} {path : Path} {depth : Nat}

/-- What follows a node that is too deep is that error. -/
theorem emit_eq_tooDeep {node : Node} (h : cfg.maxDepth ≤ depth) (path : Path) (p : Page) :
    emit cfg node path depth p = fail (.tooDeep node.offset cfg.maxDepth) := by
  unfold emit
  rw [if_pos h]

/-- A sequence that is not too deep is its items in a row. -/
theorem emit_sequence (m : Mark) (body : List Node) (path : Path)
    (hdepth : depth < cfg.maxDepth) (p : Page) :
    emit cfg (.sequence m body) path depth p =
      .note (.visit path) fun _ => emitAll cfg body path 0 (depth + 1) p := by
  rw [emit, if_neg (Nat.not_le.mpr hdepth)]

/-- The row of the children of a node other than an inverted set stands one deeper. -/
theorem Node.Stands.row {parent : Node} {nodes : List Node} (h : root.Stands parent path depth)
    (hchild : ∀ i, parent.child? i = nodes[i]?)
    (hparent : ∀ mark body, parent ≠ .charset mark body true) :
    ∀ i n, nodes[i]? = some n → root.Stands n ((0 + i) :: path) (depth + 1) := by
  intro i n hn
  rw [Nat.zero_add]
  exact h.child ((hchild i).trans hn) hparent

/-- Behind the first of some nodes in a row, the others stand one place on. -/
theorem Node.Stands.row_tail {n : Node} {ns : List Node} {place : Nat}
    (h : ∀ i m, (n :: ns)[i]? = some m → root.Stands m ((place + i) :: path) depth) :
    ∀ i m, ns[i]? = some m → root.Stands m ((place + 1 + i) :: path) depth := by
  intro i m hm
  rw [Nat.add_assoc, Nat.add_comm 1 i]
  exact h (i + 1) m hm

mutual

/-- A node keeps to the limit at the place where it stands. -/
theorem keepsTo_emit (node : Node) (path : Path) (depth : Nat) (h : root.Stands node path depth)
    (p : Page) : (emit cfg node path depth p).KeepsTo root cfg.maxDepth := by
  have hlevel := h.level
  -- The limit is held against the depth, which is the length of the path without struck ranges.
  by_cases hdepth : cfg.maxDepth ≤ depth
  · rw [emit_eq_tooDeep hdepth]
    exact ⟨rfl, path, node, h.found, rfl, by omega⟩
  unfold emit
  rw [if_neg hdepth]
  have hallowed : Event.IsAllowed root cfg.maxDepth (.visit path) :=
    ⟨⟨node, h.found⟩, by omega⟩
  refine ⟨.inl hallowed, ?_⟩
  match node, h with
  | .alternate _ l r, h =>
    intro b
    cases b with
    | true => exact keepsTo_emit l _ _ (h.child rfl nofun) p
    | false => exact keepsTo_emit r _ _ (h.child rfl nofun) p
  | .sequence _ body, h => exact keepsTo_emitAll body path 0 _ (h.row (fun _ => rfl) nofun) p
  | .group m .capturing body, h =>
    refine (keepsTo_enter path m.offset _).bind fun r => ?_
    exact (keepsTo_emit body _ _ (h.child rfl nofun) _).bind fun _ => keepsTo_leave _ _ _ _
  | .group _ .plain body, h | .group _ .ahead body, h =>
    exact keepsTo_emit body _ _ (h.child rfl nofun) p
  | .group _ .notAhead _, _ => trivial
  | .quantified _ body q, h =>
    refine (keepsTo_count cfg q).bind fun n => ?_
    exact keepsTo_iterate (keepsTo_emit body _ _ (h.child rfl nofun)) n p
  | .quantifier .., _ => trivial
  | .charset m body true, h =>
    have hrow : Node.Row root body path 0 := .of_at h.found fun _ => rfl
    refine (keepsTo_strike body path 0 _ h hrow _ _).bind fun r => ?_
    exact (keepsTo_pickChar m.offset _).bind fun _ => trivial
  | .charset m body false, h =>
    refine (keepsTo_index _).bind fun i? => ?_
    cases i? with
    | none => trivial
    | some i => exact keepsTo_emitNth m.offset body path 0 i _ (h.row (fun _ => rfl) nofun) p
  | .range m first last, h =>
    have hfirst := keepsTo_emit first _ _ (h.child (i := 0) rfl nofun)
    have hlast := keepsTo_emit last _ _ (h.child (i := 1) rfl nofun)
    have hends := keepsTo_ends m.offset (keepsTo_endpoint first.offset hfirst)
      (keepsTo_endpoint last.offset hlast)
    refine (hends _).bind fun r => ?_
    refine (keepsTo_between _ _).bind fun value => ?_
    exact (keepsTo_scalar m.offset value).bind fun _ => trivial
  | .literal .., _ => trivial
  | .numeric m form code, _ => exact (keepsTo_escaped m.offset form code).bind fun _ => trivial
  | .backReference .., _ => exact ⟨.inl trivial, trivial⟩
  | .control m code, _ =>
    dsimp only
    split
    · trivial
    · trivial
  | .token m kind, _ => exact keepsTo_token m.offset kind p
  | .unknown _, _ => trivial

/-- Nodes in a row keep to the limit if each stands at its place. -/
theorem keepsTo_emitAll (nodes : List Node) (path : Path) (place depth : Nat)
    (h : ∀ i n, nodes[i]? = some n → root.Stands n ((place + i) :: path) depth) (p : Page) :
    (emitAll cfg nodes path place depth p).KeepsTo root cfg.maxDepth := by
  match nodes with
  | [] => trivial
  | n :: ns =>
    refine (keepsTo_emit n _ _ (h 0 n rfl) p).bind fun q => ?_
    exact keepsTo_emitAll ns path _ depth (Node.Stands.row_tail h) q

/-- The chosen one of some nodes in a row keeps to the limit if each stands at its place. -/
theorem keepsTo_emitNth (offset : UInt64) (nodes : List Node) (path : Path) (place i depth : Nat)
    (h : ∀ i n, nodes[i]? = some n → root.Stands n ((place + i) :: path) depth) (p : Page) :
    (emitNth cfg offset nodes path place i depth p).KeepsTo root cfg.maxDepth := by
  match nodes, i with
  | [], _ => trivial
  | n :: _, 0 => exact keepsTo_emit n _ _ (h 0 n rfl) p
  | _ :: ns, i + 1 => exact keepsTo_emitNth offset ns path _ i depth (Node.Stands.row_tail h) p

/-- The entries of an inverted set keep to the limit, though the ends of a range are evaluated as
deep as the range stands. -/
theorem keepsTo_strike {mark : Mark} {body : List Node} (entries : List Node) (path : Path)
    (place depth : Nat) (hset : root.Stands (.charset mark body true) path depth)
    (hrow : Node.Row root entries path place) (pool : List Char) (captures : Captures Path) :
    (strike cfg entries path place (depth + 1) pool captures).KeepsTo root cfg.maxDepth := by
  match entries with
  | [] => trivial
  | .literal .. :: rest => exact keepsTo_strike rest path _ depth hset hrow.tail _ captures
  | .range m first last :: rest =>
    have hbody : body[place]? = some (.range m first last) :=
      (Node.at_child hset.found place).symm.trans hrow.head
    have hlevel := hset.level
    obtain ⟨hrange, -, habove⟩ := hset.struck hbody
    have hfirst := keepsTo_emit first _ _ (hset.struckEnd (j := 0) hbody rfl)
    have hlast := keepsTo_emit last _ _ (hset.struckEnd (j := 1) hbody rfl)
    refine ⟨?_, ?_⟩
    · -- Where the range itself is too deep, so is its first end, and that is seen at once.
      by_cases hdepth : cfg.maxDepth ≤ depth + 1
      · refine .inr ⟨first.offset, ?_⟩
        simp only [ends, endpoint, emit_eq_tooDeep hdepth, fail_bind]
      · refine .inl ⟨⟨_, hrange⟩, ?_⟩
        rw [habove, List.length_cons]
        omega
    · have hends := keepsTo_ends m.offset (keepsTo_endpoint first.offset hfirst)
        (keepsTo_endpoint last.offset hlast) captures
      exact hends.bind fun r => keepsTo_strike rest path _ depth hset hrow.tail _ r.2.2
  -- Any other entry is not evaluated.
  | .alternate .. :: rest | .sequence .. :: rest | .group .. :: rest | .quantified .. :: rest
  | .quantifier .. :: rest | .charset .. :: rest | .numeric .. :: rest | .backReference .. :: rest
  | .control .. :: rest | .token .. :: rest | .unknown .. :: rest =>
    exact keepsTo_strike rest path _ depth hset hrow.tail _ captures

end

/-- A sample keeps to its limit. -/
theorem keepsTo_sample (cfg : Config) (root : Node) :
    (sample cfg root).KeepsTo root cfg.maxDepth :=
  (keepsTo_emit root [] 0 root.stands_root _).bind fun _ => ⟨.inl trivial, trivial⟩

end Walk

variable {σ : Type}

/-- A pattern that is no higher than the limit has no run that ends because a node is too deep. -/
theorem not_isTooDeep_of_height_le (src : Source σ) {cfg : Config} {root : Node}
    (hheight : root.height ≤ cfg.maxDepth) (s : σ) :
    ¬((sample cfg root).run src s).IsTooDeep := by
  rintro ⟨offset, limit, hresult⟩
  obtain ⟨-, path, n, hn, -, hlevel⟩ := (keepsTo_sample cfg root).due hresult
  have hlength := Node.length_add_height_le hn
  have hpos := n.height_pos
  omega

/-- In a pattern without ranges in inverted sets, nothing is visited that has as many nodes above it
as the limit says, unless the run ends because a node is too deep. -/
theorem length_lt_of_visit_unstruck (src : Source σ) {cfg : Config} {root : Node}
    (hunstruck : ∀ path, root.isStruck path = false) {s : σ} {path : Path}
    (hdeep : ¬((sample cfg root).run src s).IsTooDeep)
    (hvisit : .visit path ∈ ((sample cfg root).run src s).events) : path.length < cfg.maxDepth := by
  obtain ⟨-, hlevel⟩ := (keepsTo_sample cfg root).visit hdeep hvisit
  rwa [Node.struckAbove_eq_zero hunstruck, Nat.add_zero] at hlevel

/-- How the limit counts. In a run that does not end because a node is too deep, a place that is
visited has fewer nodes above it than the limit, the ranges among them that are entries of inverted
sets not counted. Where a run does end so, its error gives the limit and the offset of a node that
has too many nodes above it even without these ranges. -/
theorem length_lt_of_visit (src : Source σ) (cfg : Config) (root : Node) (s : σ) :
    let o := (sample cfg root).run src s
    (¬o.IsTooDeep → ∀ path, .visit path ∈ o.events →
      (∃ n, root.at? path = some n) ∧ path.length < cfg.maxDepth + root.struckAbove path) ∧
    ∀ offset limit, o.result = .error (.tooDeep offset limit) →
      limit = cfg.maxDepth ∧ ∃ path n, root.at? path = some n ∧ n.offset = offset ∧
        cfg.maxDepth + root.struckAbove path ≤ path.length := by
  intro o
  have hkeeps := keepsTo_sample cfg root
  refine ⟨fun hdeep path hvisit => hkeeps.visit hdeep hvisit, fun offset limit hresult => ?_⟩
  exact hkeeps.due hresult

/-- A character outside a range. -/
def Node.outsideSpan : Node := .oneOf [.span 'b' 'y'] true

/-- With a limit of two, the range of the inverted set is visited below the set, and its first end
below the range. -/
theorem length_lt_of_visit_outsideSpan :
    let o := (sample { maxDepth := 2 } .outsideSpan).run Source.lowest ()
    ¬o.IsTooDeep ∧ Event.visit [0, 0] ∈ o.events ∧
      (∃ n, Node.outsideSpan.at? [0, 0] = some n) ∧
        [0, 0].length < 2 + Node.outsideSpan.struckAbove [0, 0] := by
  intro o
  have hdeep : ¬o.IsTooDeep := nofun
  have hvisit : Event.visit [0, 0] ∈ o.events := by decide
  have hlaw := length_lt_of_visit Source.lowest { maxDepth := 2 } .outsideSpan ()
  exact ⟨hdeep, hvisit, hlaw.1 hdeep [0, 0] hvisit⟩

/-- Below an inverted set the limit is off by one. With a limit of two, a node that has two nodes
above it is visited, and a text is given. The same range in a set that is not inverted is too
deep. -/
theorem visit_at_limit_outsideSpan :
    let o := (sample { maxDepth := 2 } .outsideSpan).run Source.lowest ()
    o.result = .ok " " ∧ ¬(¬o.IsTooDeep → ∀ path, .visit path ∈ o.events → path.length < 2) ∧
      ((sample { maxDepth := 2 } (.oneOf [.span 'b' 'y'] false)).run Source.lowest ()).result =
        .error (.tooDeep 0 2) := by
  intro o
  have hdeep : ¬o.IsTooDeep := nofun
  have hvisit : Event.visit [0, 0] ∈ o.events := by decide
  refine ⟨rfl, fun hall => ?_, rfl⟩
  have hlt : 2 < 2 := hall hdeep [0, 0] hvisit
  exact Nat.lt_irrefl 2 hlt

end PatternSampler
