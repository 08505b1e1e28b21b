import PatternSampler.Proofs.Failures
import PatternSampler.Proofs.Flattening
import PatternSampler.Proofs.Metadata

/-!
# Samples without wrappers

Taking a wrapper away from a tree changes nothing about its samples, as long as the tree is not too
high: the choices, the texts and the errors are the same, but for the offsets of the errors
(`run_flattensTo`). What changes are the places below the wrapper, and with them what groups are
told apart by, and how deep the nodes there are. So one step goes on in step with the other tree
from any place and depth on, if the groups of the two trees are joined in their order
(`Node.Flattens.writes`). Everything beside the wrapper is the same node in another place.
-/

namespace PatternSampler

open Sampler

variable {cfg : Config}

/-- A group that is not too deep and remembers nothing is its body. -/
theorem emit_transparent {style : GroupStyle} (hstyle : style.isTransparent = true) (m : Mark)
    (body : Node) (path : Path) {depth : Nat} (hdepth : depth < cfg.maxDepth) (p : Page) :
    emit cfg (.group m style body) path depth p =
      .note (.visit path) fun _ => emit cfg body (0 :: path) (depth + 1) p := by
  cases style with
  | capturing | notAhead => cases hstyle
  | plain | ahead =>
    rw [emit, if_neg (Nat.not_le.mpr hdepth)]
    · rintro ⟨⟩
    · rintro ⟨⟩

/-- The nodes of a row are written after those before them. -/
theorem emitAll_append (before after : List Node) (path : Path) (place depth : Nat) (p : Page) :
    emitAll cfg (before ++ after) path place depth p =
      emitAll cfg before path place depth p >>=
        emitAll cfg after path (place + before.length) depth := by
  induction before generalizing place p with
  | nil => rfl
  | cons n ns ih =>
    have hplace : place + (ns.length + 1) = place + 1 + ns.length := by omega
    rw [List.cons_append, emitAll, emitAll, bind_assoc, List.length_cons, hplace]
    exact bind_congr fun p => ih (place + 1) p

/-- A member of a row is one of those before, or of those after them. -/
theorem emitNth_append (offset : UInt64) (before after : List Node) (path : Path)
    (place i depth : Nat) (p : Page) :
    emitNth cfg offset (before ++ after) path place i depth p =
      if i < before.length then emitNth cfg offset before path place i depth p
      else emitNth cfg offset after path (place + before.length) (i - before.length) depth p := by
  induction before generalizing place i with
  | nil => rfl
  | cons n ns ih =>
    cases i with
    | zero => rfl
    | succ i =>
      have hplace : place + (ns.length + 1) = place + 1 + ns.length := by omega
      have hlt : i + 1 < (n :: ns).length ↔ i < ns.length := Nat.succ_lt_succ_iff
      rw [List.cons_append, emitNth, ih, List.length_cons, hplace, Nat.succ_sub_succ]
      exact if_congr hlt.symm rfl rfl

/-- The entries of a row strike out of what those before them leave. -/
theorem strike_append (before after : List Node) (path : Path) (place depth : Nat)
    (pool : List Char) (c : Captures Path) :
    strike cfg (before ++ after) path place depth pool c =
      strike cfg before path place depth pool c >>= fun r =>
        strike cfg after path (place + before.length) depth r.1 r.2 := by
  induction before generalizing place pool c with
  | nil => rfl
  | cons entry rest ih =>
    have hplace : place + (rest.length + 1) = place + 1 + rest.length := by omega
    rw [List.cons_append, List.length_cons, hplace]
    rcases range_or_strike_cons cfg entry path place depth with ⟨m, first, last, rfl⟩ | ⟨-, hentry⟩
    · rw [strike, strike, note_bind]
      refine congrArg (note _) (funext fun _ => ?_)
      rw [bind_assoc]
      exact bind_congr fun r => ih (place + 1) _ _
    · obtain ⟨left, -, hleft⟩ := hentry pool c
      rw [hleft, hleft]
      exact ih (place + 1) left c

/-- An entry that is neither a literal nor a range strikes out the class that its text spells. -/
theorem strike_cons_spelled {entry : Node} (hliteral : entry.tag ≠ .literal)
    (hrange : entry.tag ≠ .range) (rest : List Node) (path : Path) (place depth : Nat)
    (pool : List Char) (c : Captures Path) :
    strike cfg (entry :: rest) path place depth pool c =
      strike cfg rest path (place + 1) depth (withoutShorthand entry.text pool) c := by
  cases entry with
  | literal => exact absurd rfl hliteral
  | range => exact absurd rfl hrange
  | _ => rfl

namespace Captures.Link

variable {k : Link} {about : SampleError → SampleError} {path path' : Path}
  {place place' depth depth' : Nat}

/-- Rows are written in step if their parts are. -/
theorem Writes.append {before before' after after' : List Node}
    (hbefore : k.Writes about (emitAll cfg before path place depth)
      (emitAll cfg before' path' place' depth'))
    (hafter : k.Writes about (emitAll cfg after path (place + before.length) depth)
      (emitAll cfg after' path' (place' + before'.length) depth')) :
    k.Writes about (emitAll cfg (before ++ after) path place depth)
      (emitAll cfg (before' ++ after') path' place' depth') := by
  intro p p' hp
  rw [emitAll_append, emitAll_append]
  exact (hbefore p p' hp).bind hafter

/-- A node and a row of nodes that are written in step may be followed by rows in step. -/
theorem Writes.cons_append {n : Node} {ns inner after : List Node}
    (hn : k.Writes about (emit cfg n (place :: path) depth)
      (emitAll cfg inner path' place' depth'))
    (hns : k.Writes about (emitAll cfg ns path (place + 1) depth)
      (emitAll cfg after path' (place' + inner.length) depth')) :
    k.Writes about (emitAll cfg (n :: ns) path place depth)
      (emitAll cfg (inner ++ after) path' place' depth') := by
  intro p p' hp
  rw [emitAll, emitAll_append]
  exact (hn p p' hp).bind hns

/-- Members of rows are written in step if those of their parts are. -/
theorem Writes.nth_append {offset : UInt64} {before before' after after' : List Node}
    (hlength : before.length = before'.length)
    (hbefore : ∀ i, k.Writes about (emitNth cfg offset before path place i depth)
      (emitNth cfg offset before' path' place' i depth'))
    (hafter : ∀ i, k.Writes about (emitNth cfg offset after path (place + before.length) i depth)
      (emitNth cfg offset after' path' (place' + before.length) i depth')) (i : Nat) :
    k.Writes about (emitNth cfg offset (before ++ after) path place i depth)
      (emitNth cfg offset (before' ++ after') path' place' i depth') := by
  intro p p' hp
  rw [emitNth_append, emitNth_append]
  by_cases hi : i < before.length
  · rw [if_pos hi, if_pos (hlength ▸ hi)]
    exact hbefore i p p' hp
  · rw [if_neg hi, if_neg (hlength ▸ hi), ← hlength]
    exact hafter _ p p' hp

end Captures.Link

namespace Node

/-- An entry of an inverted set that loses a wrapper loses it at an end of a range, or is of another
kind and keeps its text. -/
theorem Flattens.entry_cases {n n' : Node} (h : n.Flattens false n') :
    (∃ m a a' b, n = .range m a b ∧ n' = .range m a' b ∧ a.Flattens true a') ∨
      (∃ m a b b', n = .range m a b ∧ n' = .range m a b' ∧ b.Flattens true b') ∨
      n.tag ≠ .range ∧ n.tag ≠ .literal := by
  cases h with
  | first h m b => exact .inl ⟨m, _, _, b, rfl, rfl, h⟩
  | last h m a => exact .inr (.inl ⟨m, a, _, _, rfl, rfl, h⟩)
  | _ => exact .inr (.inr ⟨nofun, nofun⟩)

/-- What stands in the place of a quantifier asks for the same counts, or fails in the same way. -/
theorem Flattens.count_eq {q q' : Node} (h : q.Flattens false q') :
    Sampler.count cfg q = Sampler.count cfg q' := by
  cases h <;> rfl

/-- The groups in a group that remembers nothing are those in its body. -/
theorem groupPlaces_transparent {style : GroupStyle} (hstyle : style.isTransparent = true)
    (m : Mark) (body : Node) (path : Path) :
    (Node.group m style body).groupPlaces path = body.groupPlaces (0 :: path) := by
  cases style with
  | capturing | notAhead => cases hstyle
  | plain | ahead => rfl

/-- An entry of an inverted set that loses a wrapper strikes out the same as before, if an end of a
range that loses one is written in step. -/
theorem Flattens.inStep_strike_cons {k : Captures.Link} {n n' : Node} (h : n.Flattens false n')
    {rest : List Node} {path path' : Path} {place place' depth depth' : Nat}
    (hroom : depth + n.height ≤ cfg.maxDepth ∧ depth' + n.height ≤ cfg.maxDepth)
    (hjoin : List.Forall₂ k.Joins (n.groupPlaces (place :: path))
      (n'.groupPlaces (place' :: path')))
    (hwrites : ∀ {a a' : Node} {i : Nat}, a.Flattens true a' → a.height < n.height →
      List.Forall₂ k.Joins (a.groupPlaces (i :: place :: path))
        (a'.groupPlaces (i :: place' :: path')) →
      k.Writes SampleError.withoutOffset (emit cfg a (i :: place :: path) depth)
        (emit cfg a' (i :: place' :: path') depth'))
    (hrest : ∀ pool c c', k.Holds c c' → InStep SampleError.withoutOffset k.Pairs
      (strike cfg rest path (place + 1) depth pool c)
      (strike cfg rest path' (place' + 1) depth' pool c'))
    (pool : List Char) (c c' : Captures Path) (hc : k.Holds c c') :
    InStep SampleError.withoutOffset k.Pairs (strike cfg (n :: rest) path place depth pool c)
      (strike cfg (n' :: rest) path' place' depth' pool c') := by
  rcases h.entry_cases with
    ⟨m, a, a', b, rfl, rfl, hstep⟩ | ⟨m, a, b, b', rfl, rfl, hstep⟩ | ⟨hrange, hliteral⟩
  · obtain ⟨ha, hb⟩ := forall₂_of_append hjoin (hstep.length_groupPlaces_eq _ _)
    simp only [height] at hroom hwrites
    exact inStep_strike_range m (inStep_ends_emit m.offset (hwrites hstep (by omega) ha)
      (writes_emit b (.inr (by omega)) hb) (fun _ => rfl) fun _ => rfl) hrest pool c c' hc
  · obtain ⟨ha, hb⟩ := forall₂_of_append hjoin (a.length_groupPlaces _ _)
    simp only [height] at hroom hwrites
    exact inStep_strike_range m (inStep_ends_emit m.offset (writes_emit a (.inr (by omega)) ha)
      (hwrites hstep (by omega) hb) (fun _ => rfl) fun _ => rfl) hrest pool c c' hc
  · obtain ⟨hmark, htag⟩ := h.kept
    have htext : n'.text = n.text := congrArg Mark.text hmark
    rw [strike_cons_spelled hliteral hrange, strike_cons_spelled (htag ▸ hliteral) (htag ▸ hrange),
      htext]
    exact hrest _ _ _ hc

/-- A tree that loses a wrapper is written in step, from any place and depth on where it is not too
high, if its groups are joined in their order. -/
theorem Flattens.writes {k : Captures.Link} {whole : Bool} {n n' : Node} (h : n.Flattens whole n')
    {path path' : Path} {depth depth' : Nat}
    (hroom : depth + n.height ≤ cfg.maxDepth ∧ depth' + n.height ≤ cfg.maxDepth)
    (hjoin : List.Forall₂ k.Joins (n.groupPlaces path) (n'.groupPlaces path')) :
    k.Writes SampleError.withoutOffset (emit cfg n path depth) (emit cfg n' path' depth') := by
  -- The induction is on the height and not on the step, because an entry of an inverted set is not
  -- written itself: there it is an end of a range that is, two nodes below the set.
  induction hheight : n.height using Nat.strongRecOn
    generalizing n n' whole path path' depth depth' with
  | _ height ih
  subst hheight
  have hpos := n.height_pos
  have hdepth : depth < cfg.maxDepth := by omega
  have hdepth' : depth' < cfg.maxDepth := by omega
  have hlimit : cfg.maxDepth ≤ depth ↔ cfg.maxDepth ≤ depth' := by omega
  cases h with
  | bracket hstyle m =>
    -- Only the first tree comes by the wrapper, and its body is one deeper for it.
    intro p p' hp
    rw [groupPlaces_transparent hstyle] at hjoin
    simp only [height] at hroom
    rw [emit_transparent hstyle m n' path hdepth]
    exact .noteLeft (writes_emit n' (.inr (by omega)) hjoin p p' hp)
  | only m =>
    intro p p' hp
    rw [groupPlaces, groupPlacesAll, groupPlacesAll, List.append_nil] at hjoin
    simp only [height, heightAll] at hroom
    have hone : emitAll cfg [n'] path 0 (depth + 1) p = emit cfg n' (0 :: path) (depth + 1) p :=
      bind_pure _
    rw [emit_sequence m [n'] path hdepth, hone]
    exact .noteLeft (writes_emit n' (.inr (by omega)) hjoin p p' hp)
  | splice m m' before inner after =>
    simp only [groupPlaces, groupPlacesAll_row, groupPlacesAll] at hjoin
    obtain ⟨hbefore, hrest⟩ := forall₂_of_append hjoin (length_groupPlacesAll before _ _ _ _)
    obtain ⟨hinner, hafter⟩ := forall₂_of_append hrest (length_groupPlacesAll inner _ _ _ _)
    simp only [height, heightAll, heightAll_append] at hroom hpos
    refine .sequence hlimit m m rfl (.append (writes_emitAll before (.inr (by omega)) hbefore)
      (.cons_append (fun p p' hp => ?_) (writes_emitAll after (.inr (by omega)) hafter)))
    rw [emit_sequence m' inner _ (by omega)]
    exact .noteLeft (writes_emitAll inner (.inr (by omega)) hinner p p' hp)
  | left h m r =>
    obtain ⟨hl, hr⟩ := forall₂_of_append hjoin (h.length_groupPlaces_eq _ _)
    simp only [height] at hroom ih
    exact .alternate hlimit m (ih _ (by omega) h (by omega) hl rfl)
      (writes_emit r (.inr (by omega)) hr)
  | right h m l =>
    obtain ⟨hl, hr⟩ := forall₂_of_append hjoin (l.length_groupPlaces _ _)
    simp only [height] at hroom ih
    exact .alternate hlimit m (writes_emit l (.inr (by omega)) hl)
      (ih _ (by omega) h (by omega) hr rfl)
  | item h m before after =>
    simp only [groupPlaces, groupPlacesAll_row, groupPlacesAll] at hjoin
    obtain ⟨hbefore, hrest⟩ := forall₂_of_append hjoin (length_groupPlacesAll before _ _ _ _)
    obtain ⟨hn, hafter⟩ := forall₂_of_append hrest (h.length_groupPlaces_eq _ _)
    simp only [height, heightAll, heightAll_append] at hroom ih
    refine .sequence hlimit m m rfl (.append (writes_emitAll before (.inr (by omega)) hbefore) ?_)
    intro p p' hp
    exact (ih _ (by omega) h (by omega) hn rfl p p' hp).bind
      (writes_emitAll after (.inr (by omega)) hafter)
  | inside h m style =>
    simp only [height] at hroom ih
    cases style with
    | capturing =>
      obtain ⟨hgroup, hbody⟩ := List.forall₂_cons.mp hjoin
      exact .group hlimit m _ (fun _ => hgroup) (ih _ (by omega) h (by omega) hbody rfl)
    | plain | ahead | notAhead =>
      exact .group hlimit m _ (fun hstyle => by cases hstyle)
        (ih _ (by omega) h (by omega) hjoin rfl)
  | repeated h m q =>
    obtain ⟨hbody, -⟩ := forall₂_of_append hjoin (h.length_groupPlaces_eq _ _)
    simp only [height] at hroom ih
    exact .quantified hlimit m rfl (ih _ (by omega) h (by omega) hbody rfl)
  | bounds h m body =>
    obtain ⟨hbody, -⟩ := forall₂_of_append hjoin (body.length_groupPlaces _ _)
    simp only [height] at hroom
    exact .quantified hlimit m h.count_eq (writes_emit body (.inr (by omega)) hbody)
  | @entry _ invert n n' h m before after =>
    simp only [groupPlaces, groupPlacesAll_row, groupPlacesAll] at hjoin
    obtain ⟨hbefore, hrest⟩ := forall₂_of_append hjoin (length_groupPlacesAll before _ _ _ _)
    obtain ⟨hn, hafter⟩ := forall₂_of_append hrest (h.length_groupPlaces_eq _ _)
    simp only [height, heightAll, heightAll_append] at hroom ih
    cases invert with
    | false =>
      have hlength : (before ++ n :: after).length = (before ++ n' :: after).length := by
        rw [List.length_append, List.length_append, List.length_cons, List.length_cons]
      refine .charset hlimit m hlength (.nth_append rfl
        (writes_emitNth before (.inr (by omega)) hbefore m.offset) fun i => ?_)
      cases i with
      | zero => exact ih _ (by omega) h (by omega) hn rfl
      | succ i => exact writes_emitNth after (.inr (by omega)) hafter m.offset i
    | true =>
      -- What the entries before this one leave is the same on both sides, and goes on to it.
      refine .inverted hlimit m fun pool c c' hc => ?_
      rw [strike_append, strike_append]
      refine (inStep_strike before (.inr (by omega)) hbefore pool c c' hc).bind fun r r' hr => ?_
      rw [hr.value]
      exact h.inStep_strike_cons (by omega) hn
        (fun hstep hlt hends => ih _ (by omega) hstep (by omega) hends rfl)
        (inStep_strike after (.inr (by omega)) hafter) r'.1 r.2 r'.2 hr.captures
  | first h m b =>
    obtain ⟨ha, hb⟩ := forall₂_of_append hjoin (h.length_groupPlaces_eq _ _)
    simp only [height] at hroom ih
    exact .range hlimit m (inStep_ends_emit m.offset (ih _ (by omega) h (by omega) ha rfl)
      (writes_emit b (.inr (by omega)) hb) (fun _ => rfl) fun _ => rfl)
  | last h m a =>
    obtain ⟨ha, hb⟩ := forall₂_of_append hjoin (a.length_groupPlaces _ _)
    simp only [height] at hroom ih
    exact .range hlimit m (inStep_ends_emit m.offset (writes_emit a (.inr (by omega)) ha)
      (ih _ (by omega) h (by omega) hb rfl) (fun _ => rfl) fun _ => rfl)

end Node

/-- Two groups come at the same position in two lists. -/
def SamePosition (groups groups' : List Path) (group group' : Path) : Prop :=
  ∃ i : Nat, groups[i]? = some group ∧ groups'[i]? = some group'

namespace SamePosition

variable {groups groups' : List Path}

/-- In lists without repetitions each group has the position of only one other. -/
theorem biUnique (h : groups.Nodup) (h' : groups'.Nodup) :
    Relator.BiUnique (SamePosition groups groups') := by
  have hposition {l : List Path} (hl : l.Nodup) {i j : Nat} {group : Path}
      (hi : l[i]? = some group) (hj : l[j]? = some group) : i = j :=
    (List.getElem?_inj (List.getElem?_eq_some_iff.mp hi).1 hl).mp (hi.trans hj.symm)
  constructor
  · rintro a b c ⟨i, ha, hc⟩ ⟨j, hb, hc'⟩
    obtain rfl := hposition h' hc hc'
    exact Option.some.inj (ha.symm.trans hb)
  · rintro a b c ⟨i, ha, hb⟩ ⟨j, ha', hc⟩
    obtain rfl := hposition h ha ha'
    exact Option.some.inj (hb.symm.trans hc)

/-- Lists of the same length are related one by one. -/
theorem forall₂ (h : groups.length = groups'.length) :
    List.Forall₂ (SamePosition groups groups') groups groups' := by
  refine List.forall₂_iff_get.mpr ⟨h, fun i hi hi' => ⟨i, ?_, ?_⟩⟩
  · exact List.getElem?_eq_getElem hi
  · exact List.getElem?_eq_getElem hi'

end SamePosition

/-- Groups that are related one to one are found at the same positions in related lists. -/
theorem idxOf?_eq_of_forall₂ {ρ : Path → Path → Prop} (hρ : Relator.BiUnique ρ)
    {groups groups' : List Path} (h : List.Forall₂ ρ groups groups') {group group' : Path}
    (hgroup : ρ group group') : groups.idxOf? group = groups'.idxOf? group' := by
  induction h with
  | nil => rfl
  | @cons first first' rest rest' hfirst _ ih =>
    have hiff : first = group ↔ first' = group' :=
      ⟨fun heq => hρ.2 (heq ▸ hfirst) hgroup, fun heq => hρ.1 (heq ▸ hfirst) hgroup⟩
    rw [List.idxOf?_cons, List.idxOf?_cons, ih]
    simp only [beq_iff_eq, hiff]

namespace Captures.Link

/-- The same texts have been captured for groups that are related in some way. -/
def renamed (ρ : Path → Path → Prop) : Link where
  Holds c c' := List.Forall₂ ρ c.seen c'.seen ∧ c.texts = c'.texts
  kept h number := by rw [Captures.kept, Captures.kept, h.2]

/-- Groups that are related one to one are joined. -/
theorem joins_renamed {ρ : Path → Path → Prop} (hρ : Relator.BiUnique ρ) {group group' : Path}
    (h : ρ group group') : (renamed ρ).Joins group group' := by
  have hentered {c c' : Captures Path} (hc : (renamed ρ).Holds c c') :
      (c.entered group).1 = (c'.entered group').1 ∧
        (renamed ρ).Holds (c.entered group).2 (c'.entered group').2 := by
    have hnumber : c.number? group = c'.number? group' :=
      congrArg (·.map (· + 1)) (idxOf?_eq_of_forall₂ hρ hc.1 h)
    unfold Captures.entered
    rw [hnumber]
    cases c'.number? group' with
    | some number => exact ⟨rfl, hc⟩
    | none =>
      refine ⟨congrArg (· + 1) hc.1.length_eq, ?_, hc.2⟩
      exact List.rel_append hc.1 (.cons h .nil)
  refine ⟨fun hc => (hentered hc).1, fun hc => (hentered hc).2, fun hc number text => ⟨hc.1, ?_⟩⟩
  rw [Captures.keep, Captures.keep, hc.2]

end Captures.Link

/-- A tree that is not too high is sampled in step with the tree after a wrapper has been taken
away. -/
theorem Node.Flattens.inStep_sample {n n' : Node} (h : n.Flattens true n')
    (hheight : n.height ≤ cfg.maxDepth) :
    InStep SampleError.withoutOffset Eq (sample cfg n) (sample cfg n') := by
  have hunique := SamePosition.biUnique (n.nodup_groupPlaces []) (n'.nodup_groupPlaces [])
  have hjoin := (SamePosition.forall₂ (h.length_groupPlaces_eq [] [])).imp
    fun _ _ hgroup => Captures.Link.joins_renamed hunique hgroup
  have hwrites : (Captures.Link.renamed _).Writes SampleError.withoutOffset (emit cfg n [] 0)
      (emit cfg n' [] 0) := h.writes (by omega) hjoin
  exact (hwrites { } { } ⟨rfl, .nil, rfl⟩).bind fun p p' hp => .note (.done hp.text_eq)

/-- Results that are the same value, or errors about which the same is said. -/
theorem Sampler.SameEnd.mapError_eq {α : Type} {about : SampleError → SampleError}
    {r r' : Except SampleError α} (h : SameEnd about Eq r r') :
    r.mapError about = r'.mapError about := by
  cases h with
  | ok h => rw [h]
  | error h => exact congrArg Except.error h

/-- Any number of wrappers may be taken away. -/
theorem Node.FlattensTo.run_eq {σ : Type} (src : Source σ) {n n' : Node} (h : n.FlattensTo true n')
    (hheight : n.height ≤ cfg.maxDepth) (s : σ) :
    n'.height ≤ cfg.maxDepth ∧
    let o := (sample cfg n).run src s
    let o' := (sample cfg n').run src s
    o.calls = o'.calls ∧ o.state = o'.state ∧
      o.result.mapError SampleError.withoutOffset =
        o'.result.mapError SampleError.withoutOffset := by
  induction h with
  | refl => exact ⟨hheight, rfl, rfl, rfl⟩
  | tail _ hstep ih =>
    obtain ⟨hbetween, hcalls, hstate, hresult⟩ := ih
    obtain ⟨hcalls', hstate', hend⟩ := (hstep.inStep_sample hbetween).run src s
    exact ⟨Nat.le_trans hstep.height_le hbetween, hcalls.trans hcalls', hstate.trans hstate',
      hresult.trans hend.mapError_eq⟩

/-- Results that differ in nothing but what an error says are the same values. -/
theorem ok_iff_of_mapError_eq {α : Type} {about : SampleError → SampleError}
    {r r' : Except SampleError α} (h : r.mapError about = r'.mapError about) (a : α) :
    r = .ok a ↔ r' = .ok a := by
  cases r with
  | ok b =>
    cases r' with
    | ok b' => rw [Except.ok.inj h]
    | error e' => cases h
  | error e =>
    cases r' with
    | ok b' => cases h
    | error e' => exact iff_of_false nofun nofun

/-- Wrappers make no difference to the samples of a tree that is not too high: the groups that
remember nothing, the sequences with one item and the sequences within sequences, but for those that
stand in the place of a quantifier or are entries of an inverted set. However many of them are taken
away, and in which order, the same calls are made with the same answers, and the same text is given
or the same error but for its offset. The flat tree is reached in this way, and has no wrapper
left. -/
theorem run_flattensTo {σ : Type} (src : Source σ) (cfg : Config) (node : Node)
    (hheight : node.height ≤ cfg.maxDepth) (s : σ) :
    node.FlattensTo true node.flat ∧ node.flat.IsFlat true ∧
    ∀ node', node.FlattensTo true node' →
      let o := (sample cfg node).run src s
      let o' := (sample cfg node').run src s
      o.calls = o'.calls ∧ o.state = o'.state ∧
        (∀ text, o.result = .ok text ↔ o'.result = .ok text) ∧
        o.result.mapError SampleError.withoutOffset =
          o'.result.mapError SampleError.withoutOffset := by
  refine ⟨node.flattensTo_flatten true, node.isFlat_flatten true, fun node' hnode' => ?_⟩
  obtain ⟨-, hcalls, hstate, hresult⟩ := hnode'.run_eq src hheight s
  exact ⟨hcalls, hstate, ok_iff_of_mapError_eq hresult, hresult⟩

/-- A group in brackets, a sequence in a sequence, a bracket that is repeated, a set that leaves out
what is between a bracket and a character, and an entry in brackets, and the group again. -/
def Node.wrapped : Node :=
  .sequence { } [bracket (.group { } .capturing (bracket (ofChar 'a'))),
    .sequence { } [.sequence { } [ofChar 'b'],
      .quantified { } (bracket (ofChar 'c')) (.times 2 none)],
    .charset { } [.range { } (bracket (ofChar ' ')) (ofChar '!'), bracket (ofChar '"')] true,
    backTo 1]

/-- Without its wrappers it is a sequence of five items, and the entry in brackets has stayed. -/
theorem run_flattensTo_wrapped :
    Node.wrapped.height ≤ ({ } : Config).maxDepth ∧
      Node.wrapped.flat = .sequence { } [.group { } .capturing (.ofChar 'a'), .ofChar 'b',
        .quantified { } (.ofChar 'c') (.times 2 none),
        .charset { } [.range { } (.ofChar ' ') (.ofChar '!'), .bracket (.ofChar '"')] true,
        .backTo 1] ∧
      let o := (sample { } .wrapped).run Source.lowest ()
      let o' := (sample { } Node.wrapped.flat).run Source.lowest ()
      o.calls = o'.calls ∧ o.state = o'.state ∧ o'.result = .ok "abcc\"a" ∧
        o.result.mapError SampleError.withoutOffset =
          o'.result.mapError SampleError.withoutOffset := by
  have hheight : Node.wrapped.height ≤ ({ } : Config).maxDepth := by decide
  obtain ⟨hflat, -, heq⟩ := run_flattensTo Source.lowest { } .wrapped hheight ()
  obtain ⟨hcalls, hstate, htexts, hresult⟩ := heq _ hflat
  have hrun : ((sample { } .wrapped).run Source.lowest ()).result = .ok "abcc\"a" := rfl
  exact ⟨hheight, rfl, hcalls, hstate, (htexts _).mp hrun, hresult⟩

-- An entry of an inverted set is not evaluated, so it stands for nothing while it is in brackets.
example :
    let outside (entry : Node) : Node := .oneOf [entry] true
    ((sample { } (outside (.bracket (.ofChar ' ')))).run Source.lowest ()).result = .ok " " ∧
      ((sample { } (outside (.ofChar ' '))).run Source.lowest ()).result = .ok "!" := ⟨rfl, rfl⟩

end PatternSampler
