import Mathlib.Data.List.Induction
import PatternSampler.Proofs.BottomUp

/-!
# The history of a sample

A group may be entered and left many times while a sample is made. A `History` keeps all of that, in
order, with the text that was given each time a group was left. Which group a number means, and what
it gave last, are read off the history when they are asked for (`History.recalled`), and
`History.memory` remembers groups in this way.

`Captures` keeps less: the order of the groups and one text for each number. `Agrees` says that it
keeps what matters, and `Agrees.enter` and `Agrees.leave` that it goes on doing so.
-/

namespace PatternSampler

/-- Something that happens to a group. -/
inductive Moment where
  /-- The group is entered. -/
  | entered (path : Path)
  /-- The group is left after its body has given a text. -/
  | left (path : Path) (text : String)
  deriving DecidableEq, Repr

/-- What has happened to groups, the earliest first. -/
abbrev History := List Moment

/-- The group that is entered. -/
def Moment.entry? : Moment → Option Path
  | entered path => some path
  | left .. => none

/-- The text that a given group gives when it is left. -/
def Moment.output? (path : Path) : Moment → Option String
  | entered _ => none
  | left group text => if group = path then some text else none

/-- What an event means for groups. -/
def Event.moment? : Event → Option Moment
  | .enter path .. => some (.entered path)
  | .leave path text => some (.left path text)
  | _ => none

namespace History

/-- What has happened to groups in the course of some events. -/
def ofEvents (events : List Event) : History := events.filterMap Event.moment?

/-- The groups that have been entered, in the order in which they were first entered. -/
def groups (h : History) : List Path := (h.filterMap Moment.entry?).eraseDups

/-- The texts that a group has given, one for each time it was left. -/
def outputs (h : History) (path : Path) : List String := h.filterMap (Moment.output? path)

/-- What the group with a number gave when it was last left. Numbers start at 1. The text is empty
if there is no such group, or if it has not been left yet. -/
def recalled (h : History) : Nat → String
  | 0 => ""
  | n + 1 => (h.groups[n]?.bind fun path => (h.outputs path).getLast?).getD ""

/-- The history as a memory. -/
def memory : Memory History where
  enter path h :=
    match h.groups.idxOf? path with
    | some i => (i + 1, false, h ++ [.entered path])
    | none => (h.groups.length + 1, true, h ++ [.entered path])
  leave path _ text h := h ++ [.left path text]
  recalled n h := h.recalled n

/-- A group that is entered comes last if it has not been entered before. -/
theorem groups_entered (h : History) (path : Path) :
    groups (h ++ [.entered path]) =
      if path ∈ h.groups then h.groups else h.groups ++ [path] := by
  have hmem : path ∈ h.groups ↔ path ∈ h.filterMap Moment.entry? := List.mem_eraseDups
  have hentry : [Moment.entered path].filterMap Moment.entry? = [path] := rfl
  simp only [hmem]
  rw [groups, List.filterMap_append, hentry, List.eraseDups_append]
  split
  · next hin =>
    have hnone : [path].removeAll (h.filterMap Moment.entry?) = [] := by
      rw [List.removeAll, List.filter_cons_of_neg (by simpa using hin), List.filter_nil]
    rw [hnone, List.eraseDups_nil, List.append_nil, groups]
  · next hnew =>
    have hone : [path].removeAll (h.filterMap Moment.entry?) = [path] := by
      rw [List.removeAll, List.filter_cons_of_pos (by simpa using hnew), List.filter_nil]
    have hdups : [path].eraseDups = [path] := rfl
    rw [hone, hdups, groups]

/-- Leaving a group adds no group. -/
theorem groups_left (h : History) (path : Path) (text : String) :
    groups (h ++ [.left path text]) = h.groups := by
  have hentry : [Moment.left path text].filterMap Moment.entry? = [] := rfl
  rw [groups, List.filterMap_append, hentry, List.append_nil, groups]

/-- Each group is listed once, however often it has been entered. -/
theorem nodup_groups (h : History) : h.groups.Nodup := by
  induction h using List.reverseRecOn with
  | nil => exact List.nodup_nil
  | append_singleton h moment ih =>
    cases moment with
    | entered path =>
      rw [groups_entered]
      split
      · exact ih
      · next hnew =>
        refine List.nodup_append.mpr ⟨ih, List.pairwise_singleton _ path, ?_⟩
        intro group hgroup other hother heq
        rw [List.mem_singleton.mp hother] at heq
        exact hnew (heq ▸ hgroup)
    | left path text =>
      rw [groups_left]
      exact ih

/-- Entering a group gives no text. -/
theorem outputs_entered (h : History) (path group : Path) :
    outputs (h ++ [.entered path]) group = h.outputs group := by
  simp [outputs, Moment.output?]

/-- Leaving a group gives the latest of its texts. -/
theorem outputs_left (h : History) (path group : Path) (text : String) :
    outputs (h ++ [.left path text]) group =
      if path = group then h.outputs group ++ [text] else h.outputs group := by
  simp only [outputs, List.filterMap_append]
  split
  · next h => simp [Moment.output?, h]
  · next h => simp [Moment.output?, h]

/-- The groups of a history come first in every history that goes on from it. -/
theorem groups_isPrefix {h h' : History} (hh : h <+: h') : h.groups <+: h'.groups := by
  obtain ⟨later, rfl⟩ := hh
  simp only [groups, List.filterMap_append, List.eraseDups_append]
  exact List.prefix_append _ _

/-- A group that has not been entered has given no text in a history where only groups that have
been entered are left. -/
theorem outputs_eq_nil {h : History} (hleft : ∀ path text, .left path text ∈ h → path ∈ h.groups)
    {path : Path} (hpath : path ∉ h.groups) : h.outputs path = [] := by
  rw [outputs, List.filterMap_eq_nil_iff]
  intro moment hmoment
  -- The only moments that give a text are those in which a group is left.
  cases moment with
  | entered _ => rfl
  | left group text =>
    have hne : group ≠ path := fun heq => hpath (heq ▸ hleft group text hmoment)
    exact if_neg hne

/-- Entering a group changes nothing that is recalled. -/
theorem recalled_entered {h : History}
    (hleft : ∀ path text, Moment.left path text ∈ h → path ∈ h.groups) (path : Path) (n : Nat) :
    recalled (h ++ [.entered path]) n = h.recalled n := by
  cases n with
  | zero => rfl
  | succ n =>
    simp only [recalled, outputs_entered, groups_entered]
    split
    · rfl
    · next hnew =>
      -- The new group has not given anything yet, and the number was not in use before.
      rcases Nat.lt_trichotomy n h.groups.length with hlt | rfl | hgt
      · rw [List.getElem?_append_left hlt]
      · have hnone : h.groups[h.groups.length]? = none := List.getElem?_eq_none (Nat.le_refl _)
        rw [List.getElem?_concat_length, hnone, Option.bind_some, outputs_eq_nil hleft hnew]
        rfl
      · have hnone : h.groups[n]? = none := List.getElem?_eq_none (Nat.le_of_lt hgt)
        have hnone' : (h.groups ++ [path])[n]? = none := by
          rw [List.getElem?_eq_none]
          rw [List.length_append, List.length_singleton]
          exact hgt
        rw [hnone, hnone']

/-- Leaving a group changes what is recalled for its own number only. -/
theorem recalled_left {h : History} {path : Path} {i : Nat} (hi : h.groups[i]? = some path)
    (text : String) (n : Nat) :
    recalled (h ++ [.left path text]) n = if n = i + 1 then text else h.recalled n := by
  cases n with
  | zero => rfl
  | succ n =>
    simp only [recalled, groups_left, outputs_left, Nat.add_right_cancel_iff]
    split
    · next heq =>
      rw [heq, hi, Option.bind_some, if_pos rfl, List.getLast?_concat]
      rfl
    · next hne =>
      -- Another number stands for another group.
      cases hn : h.groups[n]? with
      | none => rfl
      | some group =>
        have hother : path ≠ group := by
          intro heq
          have hlt : i < h.groups.length := (List.getElem?_eq_some_iff.mp hi).1
          have hsame : h.groups[i]? = h.groups[n]? := by rw [hi, hn, heq]
          exact hne ((List.getElem?_inj hlt h.nodup_groups).mp hsame).symm
        rw [Option.bind_some, Option.bind_some, if_neg hother]

/-- The number that a group gets on entering tells its place among the groups. -/
theorem enter_place (h : History) (path : Path) :
    ∃ i, (memory.enter path h).1 = i + 1 ∧ (groups (h ++ [.entered path]))[i]? = some path := by
  rw [groups_entered]
  simp only [memory]
  cases hi : h.groups.idxOf? path with
  | some i =>
    obtain ⟨hlt, heq, -⟩ := List.idxOf?_eq_some_iff.mp hi
    have hget : h.groups[i]? = some path := by rw [List.getElem?_eq_getElem hlt, heq]
    have hmem : path ∈ h.groups := List.mem_of_getElem? hget
    exact ⟨i, rfl, by rw [if_pos hmem, hget]⟩
  | none =>
    have hnew : path ∉ h.groups := List.idxOf?_eq_none_iff.mp hi
    exact ⟨_, rfl, by rw [if_neg hnew, List.getElem?_concat_length]⟩

/-- The history goes on when a group is entered. -/
theorem enter_history (h : History) (path : Path) :
    (memory.enter path h).2.2 = h ++ [.entered path] := by
  simp only [memory]
  cases h.groups.idxOf? path with
  | none => rfl
  | some i => rfl

end History

/-- A record of captured texts keeps what matters of a history: the groups in order, and the text
that each number recalls. -/
structure Agrees (h : History) (c : Captures Path) : Prop where
  seen : c.seen = h.groups
  kept : ∀ n, c.kept n = h.recalled n
  left : ∀ path text, Moment.left path text ∈ h → path ∈ h.groups

/-- Nothing is kept of an empty history. -/
theorem agrees_empty : Agrees [] { } where
  seen := rfl
  kept n := by cases n <;> rfl
  left := nofun

namespace Agrees

variable {h : History} {c : Captures Path}

/-- A record that agrees tells about a group that is entered what the history tells. -/
theorem enter_eq (hc : Agrees h c) (path : Path) :
    (Captures.memory.enter path c).1 = (History.memory.enter path h).1 ∧
      (Captures.memory.enter path c).2.1 = (History.memory.enter path h).2.1 := by
  simp only [Captures.memory, History.memory, Captures.number?, Captures.nextNumber, hc.seen]
  cases h.groups.idxOf? path with
  | none => exact ⟨rfl, rfl⟩
  | some i => exact ⟨rfl, rfl⟩

/-- A record that agrees still does when a group has been entered. -/
theorem enter (hc : Agrees h c) (path : Path) :
    Agrees (h ++ [.entered path]) (Captures.memory.enter path c).2.2 := by
  -- All but the order of the groups stays as it was.
  have hseen : (Captures.memory.enter path c).2.2.seen = History.groups (h ++ [.entered path]) := by
    simp only [History.groups_entered, Captures.memory, Captures.number?, hc.seen]
    cases hi : h.groups.idxOf? path with
    | some i =>
      have hmem : path ∈ h.groups := List.isSome_idxOf?.mp (by rw [hi]; rfl)
      rw [if_pos hmem]
      exact hc.seen
    | none =>
      have hnew : path ∉ h.groups := List.idxOf?_eq_none_iff.mp hi
      rw [if_neg hnew, ← hc.seen]
      rfl
  have hkept (n : Nat) : (Captures.memory.enter path c).2.2.kept n = c.kept n := by
    simp only [Captures.memory]
    cases c.number? path with
    | some number => rfl
    | none => rfl
  refine ⟨hseen, fun n => ?_, fun group text hin => ?_⟩
  · rw [hkept, hc.kept, History.recalled_entered hc.left]
  · have hin' : Moment.left group text ∈ h := by simpa using hin
    have hsub := (History.groups_isPrefix (List.prefix_append h [.entered path])).subset
    exact hsub (hc.left group text hin')

/-- A record that agrees still does when a group has been left, and its text is kept under the
number that tells the place of the group. -/
theorem leave (hc : Agrees h c) {path : Path} {i : Nat} (hi : h.groups[i]? = some path)
    (text : String) : Agrees (h ++ [.left path text]) (c.keep (i + 1) text) where
  seen := by
    rw [History.groups_left]
    exact hc.seen
  kept n := by rw [Captures.kept_keep, History.recalled_left hi, hc.kept]
  left group other hin := by
    rw [History.groups_left]
    rcases List.mem_append.mp hin with hin | hin
    · exact hc.left group other hin
    · cases List.mem_singleton.mp hin
      exact List.mem_of_getElem? hi

end Agrees

end PatternSampler
