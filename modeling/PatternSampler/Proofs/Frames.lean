import Mathlib.Logic.Relation
import PatternSampler.Proofs.Failures
import PatternSampler.Proofs.Places

/-!
# How a run gets to a node

A `Frame` is a node together with the circumstances in which it is evaluated: its place, its depth,
what has been written and captured before, and the state of the source. `Frame.Child` says from
which frame a run gets to which other one, and what has to have happened in between: the branch that
was chosen, the items that came before, the rounds that have been gone through. A run of a pattern
reaches the frames that it gets to in this way from the whole pattern (`Frame.Reaches`), and the
node of each of them stands in the pattern at the place of the frame (`Frame.Reaches.at_path`).

An entry of an inverted set that is a range is a frame, too, for its ends are evaluated. It counts
as being as deep as the set.
-/

namespace PatternSampler

/-- A node that is evaluated, with its place and its depth, what has been written and captured
before and the state of the source. -/
structure Frame (σ : Type) where
  node : Node
  path : Path
  depth : Nat
  page : Page
  state : σ

namespace Frame

variable {σ : Type}

/-- The frame of a whole pattern. -/
def start (root : Node) (s : σ) : Frame σ := ⟨root, [], 0, { }, s⟩

open Sampler in
/-- The evaluation of one frame, if its node is not too deep, gets to another. -/
inductive Child (src : Source σ) (cfg : Config) : Frame σ → Frame σ → Prop where
  /-- The first branch is chosen. -/
  | left {mark l r path depth p s s'} (h : boolean.Gives src s true s') :
      Child src cfg ⟨.alternate mark l r, path, depth, p, s⟩ ⟨l, 0 :: path, depth + 1, p, s'⟩
  /-- The second branch is chosen. -/
  | right {mark l r path depth p s s'} (h : boolean.Gives src s false s') :
      Child src cfg ⟨.alternate mark l r, path, depth, p, s⟩ ⟨r, 1 :: path, depth + 1, p, s'⟩
  /-- An item comes after those before it. -/
  | item {mark before n after path depth p q s s'}
      (h : (emitAll cfg before path 0 (depth + 1) p).Gives src s q s') :
      Child src cfg ⟨.sequence mark (before ++ n :: after), path, depth, p, s⟩
        ⟨n, before.length :: path, depth + 1, q, s'⟩
  /-- A capturing group is entered. -/
  | captured {mark body path depth p number captures s s'}
      (h : (enter path mark.offset p.captures).Gives src s (number, captures) s') :
      Child src cfg ⟨.group mark .capturing body, path, depth, p, s⟩
        ⟨body, 0 :: path, depth + 1, { p with captures }, s'⟩
  /-- Another group is entered, unless it says what must not follow. -/
  | bracketed {mark style body path depth p s} (hcapturing : style ≠ .capturing)
      (hahead : style ≠ .notAhead) :
      Child src cfg ⟨.group mark style body, path, depth, p, s⟩ ⟨body, 0 :: path, depth + 1, p, s⟩
  /-- A round of a repetition comes after those before it. -/
  | round {mark body quantifier path depth p q n k s s₁ s'}
      (hcount : (count cfg quantifier).Gives src s n s₁) (hk : k < n)
      (h : (iterate (emit cfg body (0 :: path) (depth + 1)) k p).Gives src s₁ q s') :
      Child src cfg ⟨.quantified mark body quantifier, path, depth, p, s⟩
        ⟨body, 0 :: path, depth + 1, q, s'⟩
  /-- An entry of a set is chosen. -/
  | chosen {mark body path depth p i n s s'} (h : (index body.length).Gives src s (some i) s')
      (hn : body[i]? = some n) :
      Child src cfg ⟨.charset mark body false, path, depth, p, s⟩ ⟨n, i :: path, depth + 1, p, s'⟩
  /-- An entry of an inverted set is a range, and comes after those before it. -/
  | struck {mark before n after path depth p pool captures s s'} (hrange : n.tag = .range)
      (h : (strike cfg before path 0 (depth + 1) Alphabet.printable p.captures).Gives src s
        (pool, captures) s') :
      Child src cfg ⟨.charset mark (before ++ n :: after) true, path, depth, p, s⟩
        ⟨n, before.length :: path, depth, { captures }, s'⟩
  /-- The first end of a range is evaluated on a page of its own. -/
  | first {mark first last path depth p s} :
      Child src cfg ⟨.range mark first last, path, depth, p, s⟩
        ⟨first, 0 :: path, depth + 1, { captures := p.captures }, s⟩
  /-- The last end comes after the first. -/
  | last {mark first last path depth p a captures s s'}
      (h : (endpoint first.offset (emit cfg first (0 :: path) (depth + 1)) p.captures).Gives src s
        (a, captures) s') :
      Child src cfg ⟨.range mark first last, path, depth, p, s⟩
        ⟨last, 1 :: path, depth + 1, { captures }, s'⟩

/-- A run gets from one frame to another in one step. -/
def Enters (src : Source σ) (cfg : Config) (f g : Frame σ) : Prop :=
  f.depth < cfg.maxDepth ∧ Child src cfg f g

/-- A run gets from one frame to another in any number of steps. -/
def Reaches (src : Source σ) (cfg : Config) : Frame σ → Frame σ → Prop :=
  Relation.ReflTransGen (Enters src cfg)

variable {src : Source σ} {cfg : Config} {f g : Frame σ} {root : Node}

/-- An item that comes after some others is found behind them. -/
theorem getElem?_behind (before : List Node) (n : Node) (after : List Node) :
    (before ++ n :: after)[before.length]? = some n := by
  rw [List.getElem?_append_right (Nat.le_refl _), Nat.sub_self]
  rfl

/-- A run gets from a node to its children. -/
theorem Child.at_path (h : Child src cfg f g) (hf : root.at? f.path = some f.node) :
    root.at? g.path = some g.node := by
  cases h with
  | left | right | captured | bracketed | round | first | last => exact Node.at_child hf _
  | item | struck => exact (Node.at_child hf _).trans (getElem?_behind _ _ _)
  | chosen _ hn => exact (Node.at_child hf _).trans hn

/-- The frames that a run of a pattern reaches are about nodes of the pattern. -/
theorem Reaches.at_path {s : σ} (h : Reaches src cfg (start root s) f) :
    root.at? f.path = some f.node := by
  induction h with
  | refl => rfl
  | tail _ hstep ih => exact hstep.2.at_path ih

end Frame

end PatternSampler
