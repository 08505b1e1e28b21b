import Mathlib.Logic.Relation
import PatternSampler.Proofs.InStep

/-!
# Flat trees

A group that captures nothing is only there to hold its body together, and so is a sequence with
one item. A sequence among the items of another one could as well be written without its brackets.
`Node.Flattens` takes away one such wrapper, anywhere in a tree. Two kinds of nodes have to stay
what they are: the bounds of a repetition, because nothing but a quantifier says how often to
repeat, and the entries of an inverted set, which are not evaluated. What is below them may change.

`Node.flat` takes all wrappers away. It is reached step by step (`flattensTo_flatten`), and in the
end no wrapper is left (`isFlat_flatten`). A step neither makes a tree higher nor adds or drops a
capturing group.
-/

namespace PatternSampler

/-- A group that gives what its body gives, and remembers nothing. -/
def GroupStyle.isTransparent : GroupStyle → Bool
  | .plain | .ahead => true
  | .capturing | .notAhead => false

namespace Node

/-- A wrapper is taken away from a tree. The root itself can only be the wrapper if `whole`. -/
inductive Flattens : Bool → Node → Node → Prop where
  /-- A group that remembers nothing is replaced by its body. -/
  | bracket {style : GroupStyle} (h : style.isTransparent = true) (m : Mark) (body : Node) :
      Flattens true (.group m style body) body
  /-- A sequence with one item is replaced by the item. -/
  | only (m : Mark) (n : Node) : Flattens true (.sequence m [n]) n
  /-- The items of a sequence within a sequence take its place. -/
  | splice {whole : Bool} (m m' : Mark) (before inner after : List Node) :
      Flattens whole (.sequence m (before ++ .sequence m' inner :: after))
        (.sequence m (before ++ (inner ++ after)))
  | left {whole : Bool} {l l' : Node} (h : Flattens true l l') (m : Mark) (r : Node) :
      Flattens whole (.alternate m l r) (.alternate m l' r)
  | right {whole : Bool} {r r' : Node} (h : Flattens true r r') (m : Mark) (l : Node) :
      Flattens whole (.alternate m l r) (.alternate m l r')
  | item {whole : Bool} {n n' : Node} (h : Flattens true n n') (m : Mark)
      (before after : List Node) :
      Flattens whole (.sequence m (before ++ n :: after)) (.sequence m (before ++ n' :: after))
  | inside {whole : Bool} {body body' : Node} (h : Flattens true body body') (m : Mark)
      (style : GroupStyle) : Flattens whole (.group m style body) (.group m style body')
  | repeated {whole : Bool} {body body' : Node} (h : Flattens true body body') (m : Mark)
      (q : Node) : Flattens whole (.quantified m body q) (.quantified m body' q)
  /-- What stands in the place of a quantifier stays of its kind. -/
  | bounds {whole : Bool} {q q' : Node} (h : Flattens false q q') (m : Mark) (body : Node) :
      Flattens whole (.quantified m body q) (.quantified m body q')
  /-- An entry of a set stays of its kind if the set is inverted. -/
  | entry {whole invert : Bool} {n n' : Node} (h : Flattens (!invert) n n') (m : Mark)
      (before after : List Node) :
      Flattens whole (.charset m (before ++ n :: after) invert)
        (.charset m (before ++ n' :: after) invert)
  | first {whole : Bool} {a a' : Node} (h : Flattens true a a') (m : Mark) (b : Node) :
      Flattens whole (.range m a b) (.range m a' b)
  | last {whole : Bool} {b b' : Node} (h : Flattens true b b') (m : Mark) (a : Node) :
      Flattens whole (.range m a b) (.range m a b')

/-- Any number of wrappers are taken away, one after the other. -/
abbrev FlattensTo (whole : Bool) : Node → Node → Prop := Relation.ReflTransGen (Flattens whole)

/-- No wrapper can be taken away. -/
def IsFlat (whole : Bool) (n : Node) : Prop := ∀ n', ¬n.Flattens whole n'

/-- The items that a node is made of when it stands in a sequence. -/
def items : Node → List Node
  | sequence _ body => body
  | n => [n]

/-- The sequence of some items, which is the item itself if there is just one. -/
def rowOf (m : Mark) : List Node → Node
  | [n] => n
  | ns => sequence m ns

mutual

/-- The tree without wrappers. The root itself is kept unless `whole`. -/
def flatten (whole : Bool) : Node → Node
  | alternate m l r => alternate m (l.flatten true) (r.flatten true)
  | sequence m body =>
    if whole then rowOf m (flattenItems body) else sequence m (flattenItems body)
  | group m style body =>
    if whole && style.isTransparent then body.flatten true else group m style (body.flatten true)
  | quantified m body q => quantified m (body.flatten true) (q.flatten false)
  | charset m body invert => charset m (flattenEach (!invert) body) invert
  | range m first last => range m (first.flatten true) (last.flatten true)
  | n => n

/-- The items of a sequence without wrappers. -/
def flattenItems : List Node → List Node
  | [] => []
  | n :: ns => (n.flatten true).items ++ flattenItems ns

/-- Some trees without wrappers, one by one. -/
def flattenEach (whole : Bool) : List Node → List Node
  | [] => []
  | n :: ns => n.flatten whole :: flattenEach whole ns

end

/-- The tree without wrappers. -/
def flat (n : Node) : Node := n.flatten true

/-- A row is as high as the higher of its parts. -/
theorem heightAll_append (before after : List Node) :
    heightAll (before ++ after) = max (heightAll before) (heightAll after) := by
  induction before with
  | nil => exact (Nat.zero_max _).symm
  | cons n ns ih => rw [List.cons_append, heightAll, heightAll, ih, Nat.max_assoc]

/-- The groups of some trees in a row are those of the first trees and those of the others. -/
theorem groupPlacesAll_row (before after : List Node) (path : Path) (place : Nat) :
    groupPlacesAll (before ++ after) path place =
      groupPlacesAll before path place ++ groupPlacesAll after path (place + before.length) := by
  induction before generalizing place with
  | nil => rfl
  | cons n ns ih =>
    have hplace : place + (ns.length + 1) = place + 1 + ns.length := by omega
    rw [List.cons_append, groupPlacesAll, groupPlacesAll, ih, List.append_assoc, List.length_cons,
      hplace]

/-- How many groups are in some trees in a row does not depend on their places. -/
theorem length_groupPlacesAll (nodes : List Node) (path path' : Path) (place place' : Nat) :
    (groupPlacesAll nodes path place).length = (groupPlacesAll nodes path' place').length := by
  induction nodes generalizing place place' with
  | nil => rfl
  | cons n ns ih =>
    rw [groupPlacesAll, groupPlacesAll, List.length_append, List.length_append,
      n.length_groupPlaces _ (place' :: path'), ih _ (place' + 1)]

namespace Flattens

variable {whole : Bool} {n n' : Node}

/-- A tree does not get higher. -/
theorem height_le (h : n.Flattens whole n') : n'.height ≤ n.height := by
  induction h with
  | bracket => exact Nat.le_succ _
  | only =>
    simp only [height, heightAll]
    omega
  | splice =>
    simp only [height, heightAll, heightAll_append]
    omega
  | left | right | inside | repeated | bounds | first | last =>
    simp only [height]
    omega
  | item | entry =>
    simp only [height, heightAll, heightAll_append]
    omega

/-- A tree keeps its capturing groups. -/
theorem length_groupPlaces_eq (h : n.Flattens whole n') (path path' : Path) :
    (n.groupPlaces path).length = (n'.groupPlaces path').length := by
  induction h generalizing path path' with
  | @bracket style h m body =>
    cases style with
    | capturing | notAhead => cases h
    | plain | ahead => exact body.length_groupPlaces _ _
  | only m n =>
    rw [groupPlaces, groupPlacesAll, groupPlacesAll, List.append_nil]
    exact n.length_groupPlaces _ _
  | splice m m' before inner after =>
    simp only [groupPlaces, groupPlacesAll_row, groupPlacesAll, List.length_append]
    rw [length_groupPlacesAll before path path' 0 0,
      length_groupPlacesAll inner _ path' 0 (0 + before.length),
      length_groupPlacesAll after path path' _ (0 + before.length + inner.length)]
  | left _ m r ih =>
    rw [groupPlaces, groupPlaces, List.length_append, List.length_append, ih _ (0 :: path'),
      r.length_groupPlaces _ (1 :: path')]
  | right _ m l ih =>
    rw [groupPlaces, groupPlaces, List.length_append, List.length_append, ih _ (1 :: path'),
      l.length_groupPlaces _ (0 :: path')]
  | item _ m before after ih | entry _ m before after ih =>
    simp only [groupPlaces, groupPlacesAll_row, groupPlacesAll, List.length_append]
    rw [length_groupPlacesAll before path path' 0 0, ih _ ((0 + before.length) :: path'),
      length_groupPlacesAll after path path' _ (0 + before.length + 1)]
  | inside _ m style ih =>
    cases style with
    | capturing => exact congrArg (· + 1) (ih _ _)
    | plain | ahead | notAhead => exact ih _ _
  | repeated _ m q ih =>
    rw [groupPlaces, groupPlaces, List.length_append, List.length_append, ih _ (0 :: path'),
      q.length_groupPlaces _ (1 :: path')]
  | bounds _ m body ih =>
    rw [groupPlaces, groupPlaces, List.length_append, List.length_append, ih _ (1 :: path'),
      body.length_groupPlaces _ (0 :: path')]
  | first _ m b ih =>
    rw [groupPlaces, groupPlaces, List.length_append, List.length_append, ih _ (0 :: path'),
      b.length_groupPlaces _ (1 :: path')]
  | last _ m a ih =>
    rw [groupPlaces, groupPlaces, List.length_append, List.length_append, ih _ (1 :: path'),
      a.length_groupPlaces _ (0 :: path')]

/-- A root that has to be kept keeps its mark and its tag. -/
theorem kept (h : n.Flattens false n') : n'.mark = n.mark ∧ n'.tag = n.tag := by
  cases h <;> exact ⟨rfl, rfl⟩

end Flattens

/-- What is below a node may lose wrappers if one can be taken away there. -/
theorem FlattensTo.below {whole whole' : Bool} {n n' : Node} {f : Node → Node}
    (h : n.FlattensTo whole n') (hf : ∀ {a b}, a.Flattens whole b → (f a).Flattens whole' (f b)) :
    (f n).FlattensTo whole' (f n') :=
  Relation.ReflTransGen.lift f (fun _ _ hstep => hf hstep) _ _ h

mutual

/-- The tree without wrappers is reached by taking them away one after the other. -/
theorem flattensTo_flatten (whole : Bool) (n : Node) : n.FlattensTo whole (n.flatten whole) := by
  match n with
  | .alternate m l r =>
    have hl : (Node.alternate m l r).FlattensTo whole (.alternate m (l.flatten true) r) :=
      (flattensTo_flatten true l).below (.left · m r)
    exact hl.trans ((flattensTo_flatten true r).below (.right · m _))
  | .sequence m body =>
    -- The items come first: whether just one is left is only known after them.
    have hitems := flattensTo_flattenItems whole m [] body
    rw [flatten]
    split
    · next hwhole =>
      subst hwhole
      refine hitems.trans ?_
      rw [List.nil_append]
      unfold rowOf
      split
      · next n heq =>
        rw [heq]
        exact .single (.only m n)
      · exact .refl
    · exact hitems
  | .group m style body =>
    have hbody := flattensTo_flatten true body
    rw [flatten]
    split
    · next hwhole =>
      obtain ⟨rfl, hstyle⟩ := Bool.and_eq_true_iff.mp hwhole
      exact .head (.bracket hstyle m body) hbody
    · exact hbody.below (.inside · m style)
  | .quantified m body q =>
    have hbody : (Node.quantified m body q).FlattensTo whole
        (.quantified m (body.flatten true) q) :=
      (flattensTo_flatten true body).below (.repeated · m q)
    exact hbody.trans ((flattensTo_flatten false q).below (.bounds · m _))
  | .charset m body invert => exact flattensTo_flattenEach whole m invert [] body
  | .range m a b =>
    have ha : (Node.range m a b).FlattensTo whole (.range m (a.flatten true) b) :=
      (flattensTo_flatten true a).below (.first · m b)
    exact ha.trans ((flattensTo_flatten true b).below (.last · m _))
  | .quantifier .. | .literal .. | .numeric .. | .backReference .. | .control .. | .token ..
  | .unknown .. => exact .refl

/-- The items of a sequence lose their wrappers behind those that have lost theirs. -/
theorem flattensTo_flattenItems (whole : Bool) (m : Mark) (before nodes : List Node) :
    (Node.sequence m (before ++ nodes)).FlattensTo whole
      (.sequence m (before ++ flattenItems nodes)) := by
  match nodes with
  | [] => exact .refl
  | n :: ns =>
    have hn : (Node.sequence m (before ++ n :: ns)).FlattensTo whole
        (.sequence m (before ++ n.flatten true :: ns)) :=
      (flattensTo_flatten true n).below (.item · m before ns)
    have hspread : (Node.sequence m (before ++ n.flatten true :: ns)).FlattensTo whole
        (.sequence m (before ++ ((n.flatten true).items ++ ns))) := by
      unfold items
      split
      · next m' inner heq =>
        rw [heq]
        exact .single (.splice m m' before inner ns)
      · exact .refl
    have hns := flattensTo_flattenItems whole m (before ++ (n.flatten true).items) ns
    rw [List.append_assoc, List.append_assoc] at hns
    exact (hn.trans hspread).trans hns

/-- The entries of a set lose their wrappers behind those that have lost theirs. -/
theorem flattensTo_flattenEach (whole : Bool) (m : Mark) (invert : Bool)
    (before nodes : List Node) :
    (Node.charset m (before ++ nodes) invert).FlattensTo whole
      (.charset m (before ++ flattenEach (!invert) nodes) invert) := by
  match nodes with
  | [] => exact .refl
  | n :: ns =>
    have hn : (Node.charset m (before ++ n :: ns) invert).FlattensTo whole
        (.charset m (before ++ n.flatten (!invert) :: ns) invert) :=
      (flattensTo_flatten (!invert) n).below (.entry · m before ns)
    have hns := flattensTo_flattenEach whole m invert (before ++ [n.flatten (!invert)]) ns
    rw [List.append_assoc, List.append_assoc] at hns
    exact hn.trans hns

end

namespace IsFlat

variable {m : Mark} {n : Node} {body : List Node}

/-- The items of a flat node are flat, and none of them is a sequence. -/
theorem items (h : n.IsFlat true) : ∀ item ∈ n.items, item.IsFlat true ∧ item.tag ≠ .sequence := by
  intro item hitem
  unfold Node.items at hitem
  split at hitem
  · next m body =>
    obtain ⟨before, after, rfl⟩ := List.append_of_mem hitem
    refine ⟨fun n' hn' => h _ (.item hn' m before after), fun htag => ?_⟩
    cases item with
    | sequence m' inner => exact h _ (.splice m m' before inner after)
    | _ => cases htag
  · next hsequence =>
    obtain rfl := List.mem_singleton.mp hitem
    refine ⟨h, fun htag => ?_⟩
    cases item with
    | sequence m body => exact hsequence m body rfl
    | _ => cases htag

/-- A sequence of flat items, none of which is a sequence, has nothing but itself to lose. -/
theorem sequence (h : ∀ item ∈ body, item.IsFlat true ∧ item.tag ≠ .sequence) :
    (Node.sequence m body).IsFlat false := by
  intro n' hn'
  cases hn' with
  | splice _ m' before inner after => exact (h (.sequence m' inner) (by simp)).2 rfl
  | @item _ n _ hn _ before after => exact (h n (by simp)).1 _ hn

/-- Flat items, none of which is a sequence, make a flat node. -/
theorem rowOf (h : ∀ item ∈ body, item.IsFlat true ∧ item.tag ≠ .sequence) :
    (Node.rowOf m body).IsFlat true := by
  unfold Node.rowOf
  split
  · exact (h _ List.mem_cons_self).1
  · next hone =>
    intro n' hn'
    cases hn' with
    | only => exact hone _ rfl
    | splice _ m' before inner after => exact (h (.sequence m' inner) (by simp)).2 rfl
    | @item _ n _ hn _ before after => exact (h n (by simp)).1 _ hn

end IsFlat

mutual

/-- A tree without wrappers has none to lose. -/
theorem isFlat_flatten (whole : Bool) (n : Node) : (n.flatten whole).IsFlat whole := by
  match n with
  | .alternate m l r =>
    intro n' hn'
    rw [flatten] at hn'
    cases hn' with
    | left h => exact isFlat_flatten true l _ h
    | right h => exact isFlat_flatten true r _ h
  | .sequence m body =>
    rw [flatten]
    split
    · next hwhole =>
      subst hwhole
      exact .rowOf (isFlat_flattenItems body)
    · next hwhole =>
      obtain rfl := Bool.eq_false_iff.mpr hwhole
      exact .sequence (isFlat_flattenItems body)
  | .group m style body =>
    have hbody := isFlat_flatten true body
    rw [flatten]
    split
    · next hwhole =>
      obtain ⟨rfl, -⟩ := Bool.and_eq_true_iff.mp hwhole
      exact hbody
    · next hwhole =>
      intro n' hn'
      cases hn' with
      | bracket hstyle => exact hwhole (Bool.and_eq_true_iff.mpr ⟨rfl, hstyle⟩)
      | inside h => exact hbody _ h
  | .quantified m body q =>
    intro n' hn'
    rw [flatten] at hn'
    cases hn' with
    | repeated h => exact isFlat_flatten true body _ h
    | bounds h => exact isFlat_flatten false q _ h
  | .charset m body invert =>
    intro n' hn'
    rw [flatten] at hn'
    generalize hbody : flattenEach (!invert) body = body' at hn'
    cases hn' with
    | @entry _ _ n _ h _ before after =>
      exact isFlat_flattenEach (!invert) body n (by rw [hbody]; simp) _ h
  | .range m a b =>
    intro n' hn'
    rw [flatten] at hn'
    cases hn' with
    | first h => exact isFlat_flatten true a _ h
    | last h => exact isFlat_flatten true b _ h
  | .quantifier .. | .literal .. | .numeric .. | .backReference .. | .control .. | .token ..
  | .unknown .. => exact nofun

/-- The items of a sequence without wrappers are flat, and none of them is a sequence. -/
theorem isFlat_flattenItems (nodes : List Node) :
    ∀ item ∈ flattenItems nodes, item.IsFlat true ∧ item.tag ≠ .sequence := by
  match nodes with
  | [] => exact nofun
  | n :: ns =>
    intro item hitem
    rcases List.mem_append.mp hitem with hitem | hitem
    · exact (isFlat_flatten true n).items item hitem
    · exact isFlat_flattenItems ns item hitem

/-- Trees that have lost their wrappers one by one are flat. -/
theorem isFlat_flattenEach (whole : Bool) (nodes : List Node) :
    ∀ n ∈ flattenEach whole nodes, n.IsFlat whole := by
  match nodes with
  | [] => exact nofun
  | n :: ns => exact List.forall_mem_cons.mpr ⟨isFlat_flatten whole n, isFlat_flattenEach whole ns⟩

end

end Node

end PatternSampler
