import PatternSampler.Proofs.JsonValues

/-!
# Scalars within runs

The parts of a document that are neither strings nor single marks are runs of other characters:
numbers and the three words. A reader of scalars never looks past the end of the run that it starts
in. So what it takes off the front of a run is the same whatever comes after the run
(`scalar_run`).

The reader of numbers goes by the character at the front of a text in several places. It is put
together here from two steps, `withDigits` and `behind`, for each of which this is shown once.
-/

namespace PatternSampler.Json

/-- The characters that are parts of a document by themselves. -/
def marks : List Char := ['[', ']', '\x7b', '\x7d', ':', ',']

/-- The characters that stand in no number and in no word such as null. -/
def separators : List Char := ' ' :: '\n' :: '\t' :: '\r' :: '"' :: marks

/-- A run of other characters ends before this text. -/
def EndsRun (rest : List Char) : Prop := ∀ c ∈ rest.head?, c ∈ separators

/-- A reader that stays within a run: what it takes off the front of the run does not depend on the
text after it. -/
def StaysWithin {α : Type} (read : List Char → Except Fault (α × List Char)) (w : List Char) :
    Prop :=
  ∀ cs rest a, EndsRun cs → read (w ++ cs) = .ok (a, rest) →
    ∃ w', w' <:+ w ∧ rest = w' ++ cs ∧ read w = .ok (a, w')

/-- A character that may stand in a run does not stand where one ends. -/
theorem EndsRun.ne {cs : List Char} (h : EndsRun cs) {c d : Char} (hc : c ∉ separators)
    (hd : d ∈ cs.head?) : d ≠ c := by
  rintro rfl
  exact hc (h d hd)

namespace Number

/-- A digit may stand in a run. -/
theorem not_mem_separators_of_isDigit {c : Char} (hc : isDigit c = true) : c ∉ separators := by
  have hall : separators.all (!isDigit ·) = true := by decide
  intro h
  have hdigit := List.all_eq_true.mp hall c h
  rw [hc] at hdigit
  cases hdigit

/-- The digits at the front of a run are those at the front of a text that starts with the run. -/
theorem digits_run {cs : List Char} (hcs : EndsRun cs) (w : List Char) :
    digits (w ++ cs) = ((digits w).1, (digits w).2 ++ cs) := by
  have hsplit : digits w = (w.takeWhile isDigit, w.dropWhile isDigit) :=
    List.span_eq_takeWhile_dropWhile isDigit w
  have hhead : ∀ c ∈ (w.dropWhile isDigit ++ cs).head?, isDigit c = false := by
    intro c hc
    have hdrop := List.head?_dropWhile_not isDigit w
    cases hrest : w.dropWhile isDigit with
    | nil =>
      rw [hrest, List.nil_append] at hc
      exact Bool.eq_false_iff.mpr fun h => hcs.ne (not_mem_separators_of_isDigit h) hc rfl
    | cons d ds =>
      rw [hrest] at hc hdrop
      cases hc
      exact hdrop
  have happend : w ++ cs = w.takeWhile isDigit ++ (w.dropWhile isDigit ++ cs) := by
    rw [← List.append_assoc, List.takeWhile_append_dropWhile]
  rw [hsplit, happend]
  exact digits_append (List.all_eq_true.mp List.all_takeWhile) hhead

/-- The digits of a run end inside it. -/
theorem suffix_of_digits {w ds tail : List Char} (h : digits w = (ds, tail)) : tail <:+ w := by
  rw [digits, List.span_eq_takeWhile_dropWhile] at h
  rw [← (Prod.mk.inj h).2]
  exact List.dropWhile_suffix isDigit

/-- Reads digits, of which there has to be one at least, and goes on from there. -/
def withDigits (next : List Char → List Char → Except Fault (Json × List Char))
    (cs : List Char) : Except Fault (Json × List Char) :=
  match digits cs with
  | ([], []) => .error (.cutShort .value)
  | ([], _) => .error .badNumber
  | (ds, rest) => next ds rest

/-- Goes on behind a certain character, or elsewhere if another one is at the front. -/
def behind (c : Char) (next other : List Char → Except Fault (Json × List Char)) :
    List Char → Except Fault (Json × List Char)
  | [] => other []
  | d :: rest => if d = c then next rest else other (d :: rest)

/-- Digits are read within a run if what follows them is. -/
theorem withDigits_run {next : List Char → List Char → Except Fault (Json × List Char)}
    {w : List Char} (hnext : ∀ ds tail, tail <:+ w → StaysWithin (next ds) tail) :
    StaysWithin (withDigits next) w := by
  intro cs rest a hcs h
  unfold withDigits at h ⊢
  rw [digits_run hcs] at h
  cases hd : digits w with
  | mk ds tail =>
    rw [hd] at h
    cases ds with
    | nil =>
      dsimp only at h
      split at h
      · cases h
      · cases h
      · next hne heq => exact (hne (Prod.mk.inj heq).1.symm).elim
    | cons d ds =>
      have hsuffix := suffix_of_digits hd
      obtain ⟨w', hw', hrest, hread⟩ := hnext (d :: ds) tail hsuffix cs rest a hcs h
      exact ⟨w', hw'.trans hsuffix, hrest, hread⟩

/-- A character is passed over within a run if what comes next is read there. -/
theorem behind_run {c : Char} (hc : c ∉ separators)
    {next other : List Char → Except Fault (Json × List Char)} {w : List Char}
    (hnext : ∀ w', w' <:+ w → StaysWithin next w') (hother : StaysWithin other w) :
    StaysWithin (behind c next other) w := by
  intro cs rest a hcs h
  cases w with
  | nil =>
    have hread : other ([] ++ cs) = .ok (a, rest) := by
      cases cs with
      | nil => exact h
      | cons d cs =>
        rw [List.nil_append, behind, if_neg (hcs.ne hc rfl)] at h
        exact h
    exact hother cs rest a hcs hread
  | cons d w =>
    rw [List.cons_append, behind] at h
    rw [behind]
    by_cases hd : d = c
    · rw [if_pos hd] at h ⊢
      obtain ⟨w', hw', hread⟩ := hnext w (List.suffix_cons d w) cs rest a hcs h
      exact ⟨w', hw'.trans (List.suffix_cons d w), hread⟩
    · rw [if_neg hd] at h ⊢
      exact hother cs rest a hcs h

/-- A value that does not depend on the text is read within a run. -/
theorem map_run (x : Except Fault Json) (w : List Char) :
    StaysWithin (fun cs => x.map (·, cs)) w := by
  intro cs rest a _ h
  obtain ⟨_, rfl, h⟩ := map_eq_ok h
  cases h
  exact ⟨w, List.suffix_rfl, rfl, rfl⟩

/-- The float of an exponent with the given digits. -/
def exponentValue (negative lower : Bool) (significand : Nat) (power : Int) (ds : List Char) :
    Except Fault Json :=
  let e := ds.foldl (fun n d => n * 10 + (d.toNat - '0'.toNat)) 0
  if maxExponent < e then
    if significand ≠ 0 ∧ lower = false then .error .numberOutOfRange
    else .ok (.float (if negative then -0.0 else 0.0))
  else
    (toFloat negative significand (if lower then power - e else power + e)).map .float

/-- The digits of an exponent are read after its sign. -/
theorem exponentPart_sign {negative : Bool} {significand : Nat} {power : Int} {lower : Bool}
    {cs rest : List Char}
    (h : (match cs with
      | '+' :: rest => (false, rest)
      | '-' :: rest => (true, rest)
      | cs => (false, cs)) = (lower, rest)) :
    exponentPart negative significand power cs =
      withDigits (fun ds rest =>
        (exponentValue negative lower significand power ds).map (·, rest)) rest := by
  unfold exponentPart
  split
  next _ _ heq =>
    cases heq.symm.trans h
    rw [withDigits]
    cases digits rest with
    | mk ds tail =>
      cases ds with
      | nil => cases tail <;> rfl
      | cons d ds =>
        dsimp only [exponentValue]
        split
        · split <;> rfl
        · cases toFloat negative significand _ <;> rfl

/-- An exponent is a sign, perhaps, and digits. -/
theorem exponentPart_eq (negative : Bool) (significand : Nat) (power : Int) :
    exponentPart negative significand power =
      let next (lower : Bool) := withDigits fun ds rest =>
        (exponentValue negative lower significand power ds).map (·, rest)
      behind '+' (next false) (behind '-' (next true) (next false)) := by
  funext cs
  cases cs with
  | nil => rfl
  | cons d rest =>
    dsimp only [behind]
    by_cases hplus : d = '+'
    · rw [if_pos hplus, hplus]
      exact exponentPart_sign rfl
    by_cases hminus : d = '-'
    · rw [if_neg hplus, if_pos hminus, hminus]
      exact exponentPart_sign rfl
    · rw [if_neg hplus, if_neg hminus]
      refine exponentPart_sign ?_
      split
      · next h => exact absurd (List.cons.inj h).1 hplus
      · next h => exact absurd (List.cons.inj h).1 hminus
      · rfl

/-- An exponent is read within a run. -/
theorem exponentPart_run (negative : Bool) (significand : Nat) (power : Int) (w : List Char) :
    StaysWithin (exponentPart negative significand power) w := by
  have hdigits (lower : Bool) (w : List Char) :
      StaysWithin (withDigits fun ds rest =>
        (exponentValue negative lower significand power ds).map (·, rest)) w :=
    withDigits_run fun ds tail _ => map_run _ tail
  rw [exponentPart_eq]
  exact behind_run (by decide) (fun w' _ => hdigits false w')
    (behind_run (by decide) (fun w' _ => hdigits true w') (hdigits false w))

/-- What follows a number is an exponent or nothing. -/
theorem floatTail_eq (negative : Bool) (significand : Nat) (power : Int) :
    floatTail negative significand power =
      behind 'e' (exponentPart negative significand power)
        (behind 'E' (exponentPart negative significand power) fun cs =>
          ((toFloat negative significand power).map .float).map (·, cs)) := by
  funext cs
  unfold floatTail
  split
  · rfl
  · rfl
  · next hlower hupper =>
    have hrest : (do
        let x ← toFloat negative significand power
        Except.ok (Json.float x, cs)) =
        ((toFloat negative significand power).map .float).map (·, cs) := by
      cases toFloat negative significand power <;> rfl
    rw [hrest]
    cases cs with
    | nil => rfl
    | cons d rest =>
      rw [behind, behind, if_neg, if_neg]
      · rintro rfl
        exact hupper rest rfl
      · rintro rfl
        exact hlower rest rfl

/-- What follows a number is read within a run. -/
theorem floatTail_run (negative : Bool) (significand : Nat) (power : Int) (w : List Char) :
    StaysWithin (floatTail negative significand power) w := by
  have hexponent (w' : List Char) := exponentPart_run negative significand power w'
  rw [floatTail_eq]
  exact behind_run (by decide) (fun w' _ => hexponent w')
    (behind_run (by decide) (fun w' _ => hexponent w') (map_run _ w))

/-- What follows the first digits of a number: more of them behind a point, an exponent, or
nothing. -/
def afterDigits (negative : Bool) (ds : List Char) : List Char → Except Fault (Json × List Char) :=
  let (significand, leftOut) := extend 0 ds
  behind '.'
    (withDigits fun fs =>
      let (wider, ignored) := extend significand fs
      floatTail negative wider (leftOut - (fs.length - ignored : Nat)))
    (behind 'e' (exponentPart negative significand leftOut)
      (behind 'E' (exponentPart negative significand leftOut) fun rest =>
        if leftOut = 0 then .ok (whole negative significand, rest)
        else floatTail negative significand leftOut rest))

/-- What follows is told apart by the character at its front. -/
theorem afterDigits_eq (negative : Bool) (ds rest : List Char) :
    afterDigits negative ds rest =
      match rest with
      | '.' :: rest =>
        withDigits (fun fs =>
          floatTail negative (extend (extend 0 ds).1 fs).1
            ((extend 0 ds).2 - (fs.length - (extend (extend 0 ds).1 fs).2 : Nat))) rest
      | 'e' :: rest => exponentPart negative (extend 0 ds).1 (extend 0 ds).2 rest
      | 'E' :: rest => exponentPart negative (extend 0 ds).1 (extend 0 ds).2 rest
      | rest =>
        if (extend 0 ds).2 = 0 then .ok (whole negative (extend 0 ds).1, rest)
        else floatTail negative (extend 0 ds).1 (extend 0 ds).2 rest := by
  split
  · rfl
  · rfl
  · rfl
  · next hpoint hlower hupper =>
    cases rest with
    | nil => rfl
    | cons d rest =>
      have hne : d ≠ '.' ∧ d ≠ 'e' ∧ d ≠ 'E' := by
        refine ⟨?_, ?_, ?_⟩
        · rintro rfl
          exact hpoint rest rfl
        · rintro rfl
          exact hlower rest rfl
        · rintro rfl
          exact hupper rest rfl
      rw [afterDigits]
      dsimp only [behind]
      rw [if_neg hne.1, if_neg hne.2.1, if_neg hne.2.2]

/-- A number after its sign starts with digits, of which the first is no zero if there are
others. -/
theorem unsigned_eq (negative : Bool) :
    unsigned negative =
      withDigits fun ds =>
        if ds.head? = some '0' ∧ 1 < ds.length then fun _ => .error .badNumber
        else afterDigits negative ds := by
  funext cs
  rw [unsigned, withDigits]
  cases digits cs with
  | mk ds rest =>
    cases ds with
    | nil => cases rest <;> rfl
    | cons d ds =>
      dsimp only
      split
      · next h => cases h
      · next h => cases h
      · next h =>
        cases h
        rw [if_pos ⟨rfl, by rw [List.length_cons, List.length_cons]; omega⟩]
      · next hnil hdigit hzero heq =>
        obtain ⟨rfl, rfl⟩ := Prod.mk.inj heq
        rw [if_neg, afterDigits_eq]
        · rfl
        · rintro ⟨hhead, hlength⟩
          cases hhead
          obtain ⟨d, ds, rfl⟩ := List.exists_cons_of_ne_nil
            (List.ne_nil_of_length_pos (Nat.lt_of_succ_lt_succ hlength))
          exact hzero d ds rfl

/-- What follows the first digits of a number is read within a run. -/
theorem afterDigits_run (negative : Bool) (ds w : List Char) :
    StaysWithin (afterDigits negative ds) w := by
  have hexponent (significand : Nat) (power : Int) (w' : List Char) (_ : w' <:+ w) :=
    exponentPart_run negative significand power w'
  rw [afterDigits]
  refine behind_run (by decide) (fun w' _ => withDigits_run fun _ _ _ => floatTail_run _ _ _ _)
    (behind_run (by decide) (hexponent _ _) (behind_run (by decide) (hexponent _ _) ?_))
  -- Nothing follows: the number is whole, or too long to be.
  by_cases hexact : (extend 0 ds).2 = 0
  · simp only [if_pos hexact]
    exact map_run (.ok _) w
  · simp only [if_neg hexact]
    exact floatTail_run _ _ _ w

/-- A number after its sign is read within a run. -/
theorem unsigned_run (negative : Bool) (w : List Char) : StaysWithin (unsigned negative) w := by
  rw [unsigned_eq]
  refine withDigits_run fun ds tail _ => ?_
  split
  · intro cs rest a _ h
    cases h
  · exact afterDigits_run negative ds tail

end Number

/-- A word is read within a run. -/
theorem word_run {ws : List Char} (hws : ∀ c ∈ ws, c ∉ separators) (j : Json) (w : List Char) :
    StaysWithin (fun cs => (word ws cs).map (j, ·)) w := by
  intro cs rest a hcs h
  induction ws generalizing w with
  | nil =>
    cases h
    exact ⟨w, List.suffix_rfl, rfl, rfl⟩
  | cons x ws ih =>
    obtain ⟨hx, hws⟩ := List.forall_mem_cons.mp hws
    dsimp only at h ⊢
    cases w with
    | nil =>
      -- The text after the run does not go on with the word.
      cases cs with
      | nil => cases h
      | cons c cs =>
        rw [List.nil_append, word, if_neg (hcs.ne hx rfl)] at h
        cases h
    | cons c w =>
      rw [List.cons_append, word] at h
      rw [word]
      split at h
      · next hc =>
        rw [if_pos hc]
        obtain ⟨w', hw', hread⟩ := ih hws w h
        exact ⟨w', hw'.trans (List.suffix_cons c w), hread⟩
      · cases h

/-- A scalar other than a string is read within the run that it starts. -/
theorem scalar_run {c : Char} (hc : c ∉ separators) {w cs rest : List Char} {j : Json}
    (hcs : EndsRun cs) (h : scalar c (w ++ cs) = .ok (j, rest)) :
    ∃ w', w' <:+ c :: w ∧ rest = w' ++ cs ∧ scalar c w = .ok (j, w') := by
  have hmark : c ≠ '"' := fun h => hc (h ▸ by decide)
  have hword {ws : List Char} {value : Json} (hws : ws.all (· ∉ separators) = true)
      (h : (word ws (w ++ cs)).map (value, ·) = .ok (j, rest)) :
      ∃ w', w' <:+ c :: w ∧ rest = w' ++ cs ∧ (word ws w).map (value, ·) = .ok (j, w') := by
    have hruns : ∀ c ∈ ws, c ∉ separators := fun c hc =>
      of_decide_eq_true (List.all_eq_true.mp hws c hc)
    obtain ⟨w', hw', hread⟩ := word_run hruns value w cs rest j hcs h
    exact ⟨w', hw'.trans (List.suffix_cons c w), hread⟩
  rw [scalar, if_neg hmark] at h ⊢
  split at h
  · next hnull =>
    rw [if_pos hnull]
    exact hword (by decide) h
  next hnull =>
  rw [if_neg hnull]
  split at h
  · next htrue =>
    rw [if_pos htrue]
    exact hword (by decide) h
  next htrue =>
  rw [if_neg htrue]
  split at h
  · next hfalse =>
    rw [if_pos hfalse]
    exact hword (by decide) h
  next hfalse =>
  rw [if_neg hfalse]
  split at h
  · next hnumber =>
    rw [if_pos hnumber]
    rw [Number.read] at h ⊢
    split at h
    · next hminus =>
      rw [if_pos hminus]
      obtain ⟨w', hw', hread⟩ := Number.unsigned_run true w cs rest j hcs h
      exact ⟨w', hw'.trans (List.suffix_cons c w), hread⟩
    · next hminus =>
      rw [if_neg hminus]
      exact Number.unsigned_run false (c :: w) cs rest j hcs h
  · cases h

end PatternSampler.Json
