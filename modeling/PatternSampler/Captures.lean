/-!
# Captured texts

While a pattern is sampled, its capturing groups are numbered from 1 in the order in which they are
first entered, and the text of each group is kept under its number when the group is left. A group
keeps its number for as long as the record lives, so a group that is entered again replaces its
text. The groups are told apart by keys of any type.

Numbers have no width here. A sample never gives more of them than its pattern has capturing groups
(`length_groups_le`), so a word is wide enough for every pattern with fewer than 2^32 - 1 of them.
-/

namespace PatternSampler

/-- The groups entered so far and the texts kept so far. -/
structure Captures (κ : Type) where
  /-- The groups in the order in which they were first entered. -/
  seen : List κ := []
  /-- The kept texts with their numbers, at most one for each number. -/
  texts : List (Nat × String) := []
  deriving DecidableEq, Repr

namespace Captures

variable {κ : Type} [BEq κ]

/-- The number of a group that has been entered. -/
def number? (c : Captures κ) (group : κ) : Option Nat :=
  (c.seen.idxOf? group).map (· + 1)

/-- The number a group would get if it were entered for the first time. -/
def nextNumber (c : Captures κ) : Nat := c.seen.length + 1

/-- The record with a group entered for the first time. -/
def add (c : Captures κ) (group : κ) : Captures κ :=
  { c with seen := c.seen ++ [group] }

/-- The record with a text kept under a number. -/
def keep (c : Captures κ) (number : Nat) (text : String) : Captures κ :=
  { c with texts := (number, text) :: c.texts.filter (·.1 ≠ number) }

/-- The text kept under a number, empty if there is none. -/
def kept (c : Captures κ) (number : Nat) : String :=
  (c.texts.lookup number).getD ""

/-- Texts kept under other numbers are found as if the ones under `number` had never been there. -/
theorem lookup_filter_ne {number other : Nat} (h : other ≠ number) (texts : List (Nat × String)) :
    (texts.filter (·.1 ≠ number)).lookup other = texts.lookup other := by
  induction texts with
  | nil => rfl
  | cons entry rest ih =>
    obtain ⟨n, text⟩ := entry
    rw [List.filter_cons]
    split
    · simp only [List.lookup_cons, ih]
    · rename_i hn
      have hne : (other == n) = false := by
        simp only [decide_eq_true_eq, Decidable.not_not] at hn
        simpa [hn] using h
      rw [ih, List.lookup_cons, hne]

omit [BEq κ] in
/-- The latest text kept under a number counts, and other numbers keep theirs. -/
theorem kept_keep (c : Captures κ) (number other : Nat) (text : String) :
    (c.keep number text).kept other = if other = number then text else c.kept other := by
  unfold keep kept
  by_cases h : other = number
  · simp [h]
  · have hne : (other == number) = false := by simpa using h
    simp only [List.lookup_cons, hne, if_neg h, lookup_filter_ne h]

end Captures

end PatternSampler
