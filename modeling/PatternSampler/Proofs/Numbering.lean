import Mathlib.Data.List.Nodup
import PatternSampler.Proofs.Checked
import PatternSampler.Proofs.History

/-!
# Numbers of groups and kept texts

A record of captured texts is worked on by entering groups, keeping texts under numbers and looking
them up again. An `Operation` is one of these, and the operations may come in any order: a group may
be entered without being left, and a text kept under a number that no group has.

`Captures.Holds` is what a record holds after some operations on an empty one, and every operation
preserves it (`Captures.Holds.perform`): the groups in the order of first sight, and the latest text
under each number. From the order of the groups alone it follows that their numbers are dense, and
that no two groups share one (`Captures.numbers_of_seen`).
-/

namespace PatternSampler

/-- Something that is done with a record of captured texts. -/
inductive Operation where
  /-- A group is entered, which stands at an offset. -/
  | enter (group : Path) (offset : UInt64)
  /-- A text is kept under a number, whether or not a group has it. -/
  | keep (number : UInt32) (text : String)
  /-- The text under a number is looked up. -/
  | lookUp (number : UInt32)
  deriving DecidableEq, Repr

namespace Operation

/-- The record after an operation. -/
def perform : Operation → Captures Path → Sampler (Captures Path)
  | enter group offset, c => Prod.snd <$> Sampler.enter group offset c
  | keep number text, c => pure (c.keep number.toNat text)
  | lookUp _, c => pure c

/-- The record after some operations in a row. -/
def performAll : List Operation → Captures Path → Sampler (Captures Path)
  | [], c => pure c
  | op :: ops, c => do
    let c ← op.perform c
    performAll ops c

/-- What an operation means for groups. -/
def moment? : Operation → Option Moment
  | enter group _ => some (.entered group)
  | keep .. | lookUp _ => none

/-- The text that an operation keeps under a given number. -/
def text? (number : UInt32) : Operation → Option String
  | keep other text => if other = number then some text else none
  | enter .. | lookUp _ => none

/-- The groups that some operations enter, in the order in which they first do. -/
def groups (ops : List Operation) : List Path := History.groups (ops.filterMap moment?)

/-- The text that was last kept under a number, empty if there was none. -/
def latest (ops : List Operation) (number : UInt32) : String :=
  (ops.filterMap (text? number)).getLast?.getD ""

variable {ops : List Operation}

/-- Entering a group adds it behind the others, if it has not been entered before. -/
theorem groups_enter (group : Path) (offset : UInt64) :
    groups (ops ++ [Operation.enter group offset]) =
      if group ∈ groups ops then groups ops else groups ops ++ [group] := by
  have hmoments : (ops ++ [Operation.enter group offset]).filterMap moment? =
      ops.filterMap moment? ++ [.entered group] := by
    rw [List.filterMap_append]
    rfl
  rw [groups, hmoments, History.groups_entered]
  rfl

/-- An operation that enters no group adds none. -/
theorem groups_of_moment?_eq_none {op : Operation} (h : op.moment? = none) :
    groups (ops ++ [op]) = groups ops := by
  have hmoments : (ops ++ [op]).filterMap moment? = ops.filterMap moment? := by
    rw [List.filterMap_append, List.filterMap_cons_none h, List.filterMap_nil, List.append_nil]
  rw [groups, hmoments, groups]

/-- The groups are those that are entered. -/
theorem mem_groups {group : Path} :
    group ∈ groups ops ↔ ∃ offset, Operation.enter group offset ∈ ops := by
  rw [groups, History.groups, List.mem_eraseDups, List.filterMap_filterMap, List.mem_filterMap]
  constructor
  · rintro ⟨op, hop, hentry⟩
    cases op with
    | enter other offset =>
      cases hentry
      exact ⟨offset, hop⟩
    | keep number text => cases hentry
    | lookUp number => cases hentry
  · rintro ⟨offset, hop⟩
    exact ⟨_, hop, rfl⟩

/-- Keeping a text makes it the latest under its number, and changes nothing under others. -/
theorem latest_keep (number other : UInt32) (text : String) :
    latest (ops ++ [Operation.keep number text]) other =
      if other = number then text else latest ops other := by
  rw [latest, List.filterMap_append]
  split
  · next heq =>
    have htext : [Operation.keep number text].filterMap (text? other) = [text] :=
      List.filterMap_cons_some (if_pos heq.symm)
    rw [htext, List.getLast?_concat]
    rfl
  · next hne =>
    have htext : [Operation.keep number text].filterMap (text? other) = [] :=
      List.filterMap_cons_none (if_neg (Ne.symm hne))
    rw [htext, List.append_nil, latest]

/-- An operation that keeps no text leaves the latest ones as they are. -/
theorem latest_of_text?_eq_none {op : Operation} {number : UInt32} (h : op.text? number = none) :
    latest (ops ++ [op]) number = latest ops number := by
  rw [latest, List.filterMap_append, List.filterMap_cons_none h, List.filterMap_nil,
    List.append_nil, latest]

end Operation

namespace Captures

open Operation (groups latest)

variable {c : Captures Path} {ops : List Operation}

/-- A record holds what some operations have left: the groups that they entered, in order, and the
latest text under each number. -/
structure Holds (c : Captures Path) (ops : List Operation) : Prop where
  seen : c.seen = groups ops
  kept : ∀ number : UInt32, c.kept number.toNat = latest ops number

/-- Nothing is held before the first operation. -/
theorem holds_empty : Holds { } [] := ⟨rfl, fun _ => rfl⟩

/-- The numbers of a record are those of some groups in order, from one on: each group has one, and
there are as many as groups. -/
structure Numbers (c : Captures Path) (groups : List Path) : Prop where
  nodup : groups.Nodup
  number_iff : ∀ group number,
    c.number? group = some number ↔ ∃ i, groups[i]? = some group ∧ number = i + 1
  used_iff : ∀ number,
    (∃ group, c.number? group = some number) ↔ 1 ≤ number ∧ number ≤ groups.length
  unique : ∀ group other number,
    c.number? group = some number → c.number? other = some number → group = other

/-- Groups that are listed once are numbered in the order of the list. -/
theorem numbers_of_seen (hnodup : c.seen.Nodup) : c.Numbers c.seen := by
  have hiff (group : Path) (number : Nat) :
      c.number? group = some number ↔ ∃ i, c.seen[i]? = some group ∧ number = i + 1 := by
    rw [number?, Option.map_eq_some_iff]
    constructor
    · rintro ⟨i, hi, rfl⟩
      obtain ⟨hlt, heq, -⟩ := List.idxOf?_eq_some_iff.mp hi
      exact ⟨i, by rw [List.getElem?_eq_getElem hlt, heq], rfl⟩
    · rintro ⟨i, hi, rfl⟩
      obtain ⟨hlt, heq⟩ := List.getElem?_eq_some_iff.mp hi
      refine ⟨i, List.idxOf?_eq_some_iff.mpr ⟨hlt, heq, fun j hj hsame => ?_⟩, rfl⟩
      -- Another place of the list has another group.
      have hplace : c.seen[j]? = c.seen[i]? :=
        hi.symm ▸ List.getElem?_eq_some_iff.mpr ⟨Nat.lt_trans hj hlt, hsame⟩
      exact absurd ((List.getElem?_inj (Nat.lt_trans hj hlt) hnodup).mp hplace) (Nat.ne_of_lt hj)
  refine ⟨hnodup, hiff, fun number => ?_, fun group other number hgroup hother => ?_⟩
  · constructor
    · rintro ⟨group, hgroup⟩
      obtain ⟨i, hi, rfl⟩ := (hiff group number).mp hgroup
      exact ⟨Nat.succ_pos i, (List.getElem?_eq_some_iff.mp hi).1⟩
    · rintro ⟨hpos, hle⟩
      obtain ⟨i, rfl⟩ := Nat.exists_eq_add_of_le' hpos
      exact ⟨c.seen[i], (hiff _ _).mpr ⟨i, List.getElem?_eq_getElem hle, rfl⟩⟩
  · obtain ⟨i, hi, rfl⟩ := (hiff group number).mp hgroup
    obtain ⟨j, hj, heq⟩ := (hiff other _).mp hother
    rw [Nat.add_right_cancel_iff] at heq
    rw [← heq, hi] at hj
    exact Option.some.inj hj

/-- A group that is entered for the first time has the next number then, and others keep theirs. -/
theorem number?_add (c : Captures Path) (group other : Path) :
    (c.add group).number? other =
      (c.number? other).or (if other = group then some c.nextNumber else none) := by
  have happend : (c.seen ++ [group]).idxOf? other =
      (c.seen.idxOf? other).or (([group].idxOf? other).map (· + c.seen.length)) :=
    List.findIdx?_append
  have hlast : [group].idxOf? other = if other = group then some 0 else none := by
    rw [List.idxOf?_cons, List.idxOf?_nil, Option.map_none]
    simp only [beq_iff_eq, @eq_comm _ group other]
  rw [number?, number?, add, happend, hlast, nextNumber]
  cases c.seen.idxOf? other with
  | some i => rfl
  | none => split <;> simp [*]

/-- A group has no number as long as it has not been entered. -/
theorem number?_eq_none_iff {group : Path} : c.number? group = none ↔ group ∉ c.seen := by
  rw [number?, Option.map_eq_none_iff, List.idxOf?_eq_none_iff]

end Captures

namespace Sampler

variable {σ : Type} (src : Source σ) {c : Captures Path} {group : Path}

/-- A group that has a number keeps it when it is entered again. -/
theorem run_enter_again {number : Nat} (h : c.number? group = some number) (offset : UInt64)
    (s : σ) :
    (enter group offset c).run src s =
      ⟨.ok (number, c), [.event (.enter group offset number false)], s⟩ := by
  rw [enter, h]
  exact run_note src _ _ s

/-- A group that has no number gets the next one when it is entered. -/
theorem run_enter_first (h : c.number? group = none) (offset : UInt64) (s : σ) :
    (enter group offset c).run src s =
      ⟨.ok (c.nextNumber, c.add group), [.event (.enter group offset c.nextNumber true)], s⟩ := by
  rw [enter, h]
  exact run_note src _ _ s

end Sampler

/-- Entering a group goes past no check as long as there is a word for the number after its own. -/
theorem Checked.enter_eq {c : Captures Path} (h : c.seen.length + 1 < Numeral.max32) (group : Path)
    (offset : UInt64) :
    Checked.enter group offset c = ExceptT.lift (Sampler.enter group offset c) := by
  unfold Checked.enter Sampler.enter
  cases hnumber : c.number? group with
  | some number => rfl
  | none =>
    have hword : c.nextNumber + 1 ≤ Numeral.max32 := h
    dsimp only
    rw [Checked.require, if_pos hword]
    rfl

namespace Captures.Holds

open Operation (groups latest)

variable {c : Captures Path} {ops : List Operation}

/-- The groups of a record that holds what some operations have left are numbered in order. -/
theorem numbers (h : c.Holds ops) : c.Numbers (groups ops) := by
  have hnodup : c.seen.Nodup := h.seen ▸ History.nodup_groups _
  rw [← h.seen]
  exact numbers_of_seen hnodup

/-- Every operation preserves what a record holds. It asks for nothing, and leaves as many records
in the log as it adds groups. -/
theorem perform (h : c.Holds ops) (op : Operation) {σ : Type} (src : Source σ) (s : σ) :
    ∃ (c' : Captures Path) (events : List Event),
      (op.perform c).run src s = ⟨.ok c', events.map Step.event, s⟩ ∧
      c'.Holds (ops ++ [op]) ∧
      (events.filterMap Event.record?).length + c.seen.length = c'.seen.length := by
  cases op with
  | enter group offset =>
    rw [Operation.perform, Sampler.run_map]
    -- What is kept is not touched, and a new group comes last.
    have hlatest (number : UInt32) :
        latest (ops ++ [.enter group offset]) number = latest ops number :=
      Operation.latest_of_text?_eq_none rfl
    cases hnumber : c.number? group with
    | some number =>
      have hmem : group ∈ groups ops := by
        rw [← h.seen]
        refine Decidable.not_not.mp fun hnew => ?_
        rw [number?_eq_none_iff.mpr hnew] at hnumber
        cases hnumber
      rw [Sampler.run_enter_again src hnumber]
      refine ⟨c, [_], rfl, ⟨?_, fun number => ?_⟩, Nat.zero_add _⟩
      · rw [Operation.groups_enter, if_pos hmem, h.seen]
      · rw [hlatest, h.kept]
    | none =>
      have hnew : group ∉ groups ops := h.seen ▸ number?_eq_none_iff.mp hnumber
      rw [Sampler.run_enter_first src hnumber]
      refine ⟨c.add group, [_], rfl, ⟨?_, fun number => ?_⟩, ?_⟩
      · rw [Operation.groups_enter, if_neg hnew, ← h.seen]
        rfl
      · rw [hlatest, ← h.kept]
        rfl
      · rw [add, List.length_append, Nat.add_comm]
        rfl
  | keep number text =>
    refine ⟨_, [], rfl, ⟨?_, fun other => ?_⟩, Nat.zero_add _⟩
    · rw [Operation.groups_of_moment?_eq_none rfl, ← h.seen]
      rfl
    · rw [Captures.kept_keep, Operation.latest_keep, h.kept]
      simp only [UInt32.toNat_inj]
  | lookUp number =>
    refine ⟨c, [], rfl, ⟨?_, fun other => ?_⟩, Nat.zero_add _⟩
    · rw [Operation.groups_of_moment?_eq_none rfl, h.seen]
    · rw [Operation.latest_of_text?_eq_none rfl, h.kept]

/-- So do operations in a row. -/
theorem performAll (h : c.Holds ops) (later : List Operation) {σ : Type} (src : Source σ) (s : σ) :
    ∃ (c' : Captures Path) (events : List Event),
      (Operation.performAll later c).run src s = ⟨.ok c', events.map Step.event, s⟩ ∧
      c'.Holds (ops ++ later) ∧
      (events.filterMap Event.record?).length + c.seen.length = c'.seen.length := by
  induction later generalizing c ops with
  | nil =>
    rw [List.append_nil]
    exact ⟨c, [], rfl, h, Nat.zero_add _⟩
  | cons op later ih =>
    obtain ⟨c₁, events₁, hrun₁, h₁, hlength₁⟩ := h.perform op src s
    obtain ⟨c₂, events₂, hrun₂, h₂, hlength₂⟩ := ih h₁
    refine ⟨c₂, events₁ ++ events₂, ?_, ?_, ?_⟩
    · rw [Operation.performAll, Sampler.run_bind, hrun₁, Outcome.andThen]
      dsimp only
      rw [hrun₂, List.map_append]
    · rwa [List.append_assoc] at h₂
    · rw [List.filterMap_append, List.length_append]
      omega

end Captures.Holds

/-- A run that goes through some events and makes no calls has their records. -/
theorem Outcome.records_events {σ α : Type} (result : Except SampleError α) (events : List Event)
    (s : σ) :
    (⟨result, events.map Step.event, s⟩ : Outcome σ α).calls = [] ∧
      (⟨result, events.map Step.event, s⟩ : Outcome σ α).records =
        events.filterMap Event.record? := by
  refine ⟨?_, ?_⟩
  · rw [Outcome.calls, List.filterMap_map, List.filterMap_eq_nil_iff]
    exact fun _ _ => rfl
  · rw [Outcome.records, Outcome.events, List.filterMap_map]
    exact congrArg _ (List.filterMap_some)

open Operation (groups latest performAll)

/-- What a record of captured texts does, after any operations on an empty one. They ask for
nothing, do not fail, and leave one log record for each group. The groups are numbered from one on
in the order of first sight, and under each number there is the latest text that was kept there. A
group that is entered again keeps its number, without a record in the log and without a change; a
new one gets the next number with one record, which tells the number and the offset of the group,
and there is a word for it and for the one after it unless too many groups have been entered.
Entering a group changes no text, and keeping a text no number. -/
theorem captures_performAll {σ : Type} (src : Source σ) (ops : List Operation) (s : σ) :
    let o := (performAll ops { }).run src s
    ∃ c, (o.result = .ok c ∧ o.calls = [] ∧ o.records.length = (groups ops).length ∧ o.state = s) ∧
      (∀ group, group ∈ groups ops ↔ ∃ offset, Operation.enter group offset ∈ ops) ∧
      c.Numbers (groups ops) ∧
      (∀ number : UInt32, c.kept number.toNat = latest ops number) ∧
      (∀ group offset number, c.number? group = some number →
        let e := (Sampler.enter group offset c).run src s
        e.result = .ok (number, c) ∧ e.calls = [] ∧ e.records = [] ∧ e.state = s) ∧
      (∀ group offset, c.number? group = none →
        let e := (Sampler.enter group offset c).run src s
        let next := (groups ops).length + 1
        (next < 0xFFFFFFFF →
          Checked.enter group offset c = ExceptT.lift (Sampler.enter group offset c)) ∧
        ∃ c', e.result = .ok (next, c') ∧ e.calls = [] ∧ e.state = s ∧
          e.records = [⟨.trace, s!"capture group at offset {offset} is group {next}"⟩] ∧
          c'.Numbers (groups ops ++ [group]) ∧ (∀ number, c'.kept number = c.kept number) ∧
          ∀ other, other ≠ group → c'.number? other = c.number? other) ∧
      ∀ (number : UInt32) text,
        let c' := c.keep number.toNat text
        c'.nextNumber = c.nextNumber ∧ (∀ group, c'.number? group = c.number? group) ∧
          ∀ other : UInt32,
            c'.kept other.toNat = if other = number then text else c.kept other.toNat := by
  intro o
  obtain ⟨c, events, hrun, hholds, hlength⟩ := Captures.holds_empty.performAll ops src s
  rw [List.nil_append] at hholds
  have hrun' : o = ⟨.ok c, events.map Step.event, s⟩ := hrun
  obtain ⟨hcalls, hrecords⟩ := Outcome.records_events (.ok c) events s
  have hseen : c.seen.length = (groups ops).length := by rw [hholds.seen]
  refine ⟨c, ?_, fun group => Operation.mem_groups, hholds.numbers, hholds.kept, ?_, ?_, ?_⟩
  · rw [hrun', hcalls, hrecords, ← hseen, ← hlength]
    exact ⟨rfl, rfl, rfl, rfl⟩
  · intro group offset number hnumber
    dsimp only
    rw [Sampler.run_enter_again src hnumber]
    exact ⟨rfl, rfl, rfl, rfl⟩
  · intro group offset hnumber
    dsimp only
    have hnext : c.nextNumber = (groups ops).length + 1 := congrArg (· + 1) hseen
    have hgroups : (c.add group).seen = groups ops ++ [group] := by rw [← hholds.seen]; rfl
    have hnew : group ∉ c.seen := Captures.number?_eq_none_iff.mp hnumber
    have hnodup : (c.add group).seen.Nodup := by
      rw [Captures.add, ← List.concat_eq_append, List.nodup_concat]
      exact ⟨hnew, hholds.seen ▸ hholds.numbers.nodup⟩
    rw [Sampler.run_enter_first src hnumber, hnext]
    refine ⟨fun hfew => Checked.enter_eq (hseen ▸ hfew) group offset, c.add group, rfl, rfl, rfl,
      rfl, hgroups ▸ Captures.numbers_of_seen hnodup, fun _ => rfl, fun other hne => ?_⟩
    rw [Captures.number?_add, if_neg hne, Option.or_none]
  · intro number text
    refine ⟨rfl, fun _ => rfl, fun other => ?_⟩
    rw [Captures.kept_keep]
    simp only [UInt32.toNat_inj]

/-- A text that is kept under a number before a group has it, and then another, which stays when the
groups are entered. -/
theorem captures_performAll_keptEarly :
    let ops : List Operation := [.keep 2 "x", .enter [0] 5, .keep 2 "y", .enter [1] 8, .lookUp 3,
      .enter [0] 5]
    let c : Captures Path := { seen := [[0], [1]], texts := [(2, "y")] }
    let again := (Sampler.enter [1] 8 c).run Source.lowest ()
    let first := (Sampler.enter [4] 6 c).run Source.lowest ()
    ((performAll ops { }).run Source.lowest ()).result = .ok c ∧
      c.number? [1] = some 2 ∧ c.number? [4] = none ∧ 2 + 1 < 0xFFFFFFFF ∧
      again.result = .ok (2, c) ∧ again.records = [] ∧
      (∃ c', first.result = .ok (3, c')) ∧
      first.records = [⟨.trace, "capture group at offset 6 is group 3"⟩] ∧
      Checked.enter [4] 6 c = ExceptT.lift (Sampler.enter [4] 6 c) ∧
      c.kept 2 = "y" ∧ c.kept 3 = "" := by
  intro ops c again first
  have hc : ((performAll ops { }).run Source.lowest ()).result = .ok c := rfl
  have hmember : c.number? [1] = some 2 := by decide
  have hnew : c.number? [4] = none := by decide
  have hfew : 2 + 1 < 0xFFFFFFFF := by decide
  obtain ⟨c', ⟨hresult, -⟩, -, -, hkept, hagain, hfirst, -⟩ :=
    captures_performAll Source.lowest ops ()
  have heq : c' = c := Except.ok.inj (hresult.symm.trans hc)
  subst heq
  obtain ⟨hsame, -, hsilent, -⟩ := hagain [1] 8 2 hmember
  obtain ⟨hchecked, c₁, hnext, -, -, hrecords, -⟩ := hfirst [4] 6 hnew
  have hmessage : first.records = [⟨.trace, "capture group at offset 6 is group 3"⟩] :=
    hrecords.trans (by decide)
  exact ⟨hc, hmember, hnew, hfew, hsame, hsilent, ⟨c₁, hnext⟩, hmessage, hchecked hfew, hkept 2,
    hkept 3⟩

end PatternSampler
