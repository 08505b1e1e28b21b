import PatternSampler.Pattern.Decode

/-!
# Reading an object by its names

The loops that read a node go through the members of its object from left to right and enter each
of them in its place. Which node they arrive at depends on less: on the values under each name
(`Json.under`). A place that stands under a name takes one value at most, so what it holds in the
end is what `Form.sole` and `Form.soleOr` find there.

`Node.gather` puts a node together in this way, one field at a time. `toOption_ofJson_object` shows
that it finds the node that the loops find, and finds none where they fail, so that neither the
order of the members nor those without a place matter. It says nothing about which error the loops
report.
-/

namespace PatternSampler

/-- Two computations in a row give a value if the first does and the second does with it. -/
theorem toOption_bind {ε α β : Type} (x : Except ε α) (f : α → Except ε β) :
    (x >>= f).toOption = x.toOption.bind fun a => (f a).toOption := by
  cases x <;> rfl

/-- A value that is changed is changed where there is one. -/
theorem toOption_map {ε α β : Type} (x : Except ε α) (f : α → β) :
    (x.map f).toOption = x.toOption.map f := by
  cases x <;> rfl

namespace Json

/-- The values under a name among the members of an object, in order. -/
def under (name : String) : List (String × Json) → List Json
  | [] => []
  | (field, j) :: members => if field = name then j :: under name members else under name members

variable {name : String} {members : List (String × Json)}

/-- A value stands under a name if it is a member with it. -/
theorem mem_under {j : Json} : j ∈ under name members ↔ (name, j) ∈ members := by
  induction members with
  | nil => exact iff_of_false List.not_mem_nil List.not_mem_nil
  | cons m ms ih =>
    obtain ⟨field, value⟩ := m
    rw [under, List.mem_cons, Prod.mk.injEq]
    split
    · next h =>
      rw [List.mem_cons, ih]
      exact or_congr_left (by simp [h])
    · next h =>
      rw [ih]
      exact (or_iff_right fun heq => h heq.1.symm).symm

end Json

namespace Form

variable {α β γ σ : Type}

/-- What a place holds after values have been entered in it one by one. -/
def settle (read : Json → Except ShapeError α) : Option α → List Json → Option (Option α)
  | place, [] => some place
  | none, j :: js => (read j).toOption.bind fun a => settle read (some a) js
  | some _, _ :: _ => none

/-- The value that is read under a name, if there is just one. -/
def sole (read : Json → Except ShapeError α) (name : String) (members : List (String × Json)) :
    Option α :=
  match Json.under name members with
  | [j] => (read j).toOption
  | _ => none

/-- The value that is read under a name, if there is just one, or a default if there is none. -/
def soleOr (default : α) (read : Json → Except ShapeError α) (name : String)
    (members : List (String × Json)) : Option α :=
  match Json.under name members with
  | [] => some default
  | [j] => (read j).toOption
  | _ => none

/-- A free place takes one value at most. -/
theorem settle_none (read : Json → Except ShapeError α) (js : List Json) :
    settle read none js =
      match js with
      | [] => some none
      | [j] => (read j).toOption.map some
      | _ => none := by
  match js with
  | [] => rfl
  | [j] =>
    dsimp only [settle]
    cases (read j).toOption <;> rfl
  | j :: j' :: js =>
    dsimp only [settle]
    cases (read j).toOption <;> rfl

/-- A place from which a value is needed holds the sole one. -/
theorem settle_bind_need (field : String) (read : Json → Except ShapeError α) (name : String)
    (members : List (String × Json)) :
    (settle read none (Json.under name members)).bind (fun a => (need field a).toOption) =
      sole read name members := by
  rw [settle_none, sole]
  match Json.under name members with
  | [] => rfl
  | [j] =>
    dsimp only
    cases (read j).toOption <;> rfl
  | _ :: _ :: _ => rfl

/-- A place with a default holds the sole value or the default. -/
theorem settle_map_getD (default : α) (read : Json → Except ShapeError α) (name : String)
    (members : List (String × Json)) :
    (settle read none (Json.under name members)).map (·.getD default) =
      soleOr default read name members := by
  rw [settle_none, soleOr]
  match Json.under name members with
  | [] => rfl
  | [j] =>
    dsimp only
    cases (read j).toOption <;> rfl
  | _ :: _ :: _ => rfl

/-- Entering a value and then others is entering them all. -/
theorem settle_cons (field : String) (read : Json → Except ShapeError α) (place : Option α)
    (j : Json) (js : List Json) :
    settle read place (j :: js) =
      (put field place (read j)).toOption.bind fun place => settle read place js := by
  cases place with
  | some _ => rfl
  | none =>
    rw [put, toOption_map, settle]
    cases (read j).toOption <;> rfl

section Loops

variable (loop : σ → List (String × Json) → Except ShapeError σ) {a b c : String}
  (readA : Json → Except ShapeError α) (readB : Json → Except ShapeError β)
  (readC : Json → Except ShapeError γ)

/-- A loop with one place enters the values under its name. -/
theorem loop_one (mk : Option α → σ) (hnil : ∀ s, loop s [] = .ok s)
    (hcons : ∀ x name j members, loop (mk x) ((name, j) :: members) =
      (if name = a then (put name x (readA j)).map mk else .ok (mk x)) >>= (loop · members))
    (x : Option α) (members : List (String × Json)) :
    (loop (mk x) members).toOption = (settle readA x (Json.under a members)).map mk := by
  induction members generalizing x with
  | nil => rw [hnil]; rfl
  | cons m ms ih =>
    obtain ⟨name, j⟩ := m
    rw [hcons, toOption_bind, Json.under]
    by_cases ha : name = a
    · rw [if_pos ha, if_pos ha, toOption_map, settle_cons name]
      cases (put name x (readA j)).toOption with
      | none => rfl
      | some x => exact ih x
    · rw [if_neg ha, if_neg ha]
      exact ih x

/-- A loop with two places enters in each of them the values under its name. -/
theorem loop_two (mk : Option α → Option β → σ) (hab : a ≠ b) (hnil : ∀ s, loop s [] = .ok s)
    (hcons : ∀ x y name j members, loop (mk x y) ((name, j) :: members) =
      (if name = a then (put name x (readA j)).map (mk · y)
        else if name = b then (put name y (readB j)).map (mk x ·)
        else .ok (mk x y)) >>= (loop · members))
    (x : Option α) (y : Option β) (members : List (String × Json)) :
    (loop (mk x y) members).toOption =
      (settle readA x (Json.under a members)).bind fun x =>
        (settle readB y (Json.under b members)).map (mk x ·) := by
  induction members generalizing x y with
  | nil => rw [hnil]; rfl
  | cons m ms ih =>
    obtain ⟨name, j⟩ := m
    rw [hcons, toOption_bind, Json.under, Json.under]
    by_cases ha : name = a
    · have hb : name ≠ b := ha ▸ hab
      rw [if_pos ha, if_pos ha, if_neg hb, toOption_map, settle_cons name]
      cases (put name x (readA j)).toOption with
      | none => rfl
      | some x => exact ih x y
    by_cases hb : name = b
    · rw [if_neg ha, if_pos hb, if_neg ha, if_pos hb, toOption_map, settle_cons name]
      cases (put name y (readB j)).toOption with
      | none => exact (Option.bind_fun_none _).symm
      | some y => exact ih x y
    · rw [if_neg ha, if_neg hb, if_neg ha, if_neg hb]
      exact ih x y

/-- A loop with three places enters in each of them the values under its name. -/
theorem loop_three (mk : Option α → Option β → Option γ → σ) (hab : a ≠ b) (hac : a ≠ c)
    (hbc : b ≠ c) (hnil : ∀ s, loop s [] = .ok s)
    (hcons : ∀ x y z name j members, loop (mk x y z) ((name, j) :: members) =
      (if name = a then (put name x (readA j)).map (mk · y z)
        else if name = b then (put name y (readB j)).map (mk x · z)
        else if name = c then (put name z (readC j)).map (mk x y ·)
        else .ok (mk x y z)) >>= (loop · members))
    (x : Option α) (y : Option β) (z : Option γ) (members : List (String × Json)) :
    (loop (mk x y z) members).toOption =
      (settle readA x (Json.under a members)).bind fun x =>
        (settle readB y (Json.under b members)).bind fun y =>
          (settle readC z (Json.under c members)).map (mk x y ·) := by
  induction members generalizing x y z with
  | nil => rw [hnil]; rfl
  | cons m ms ih =>
    obtain ⟨name, j⟩ := m
    rw [hcons, toOption_bind, Json.under, Json.under, Json.under]
    by_cases ha : name = a
    · rw [if_pos ha, if_pos ha, if_neg (ha ▸ hab), if_neg (ha ▸ hac), toOption_map,
        settle_cons name]
      cases (put name x (readA j)).toOption with
      | none => rfl
      | some x => exact ih x y z
    by_cases hb : name = b
    · rw [if_neg ha, if_pos hb, if_neg ha, if_pos hb, if_neg (hb ▸ hbc), toOption_map,
        settle_cons name]
      cases (put name y (readB j)).toOption with
      | none => exact (Option.bind_fun_none _).symm
      | some y => exact ih x y z
    by_cases hc : name = c
    · rw [if_neg ha, if_neg hb, if_pos hc, if_neg ha, if_neg hb, if_pos hc, toOption_map,
        settle_cons name]
      cases (put name z (readC j)).toOption with
      | none => simp
      | some z => exact ih x y z
    · rw [if_neg ha, if_neg hb, if_neg hc, if_neg ha, if_neg hb, if_neg hc]
      exact ih x y z

end Loops

end Form

open Form

/-- The mark of a node is found under its two names. -/
theorem Mark.toOption_ofMembers (members : List (String × Json)) :
    (Mark.ofMembers members).toOption =
      (soleOr 0 (·.head.toOffset) "offset" members).bind fun offset =>
        (soleOr "" (·.head.toText) "text" members).map fun text => { offset, text } := by
  have hloop := loop_two MarkForm.fillFrom (·.head.toOffset) (·.head.toText) MarkForm.mk
    (show "offset" ≠ "text" by decide) (fun _ => rfl) (fun _ _ _ _ _ => rfl) none none members
  rw [Mark.ofMembers, toOption_map, hloop, ← settle_map_getD, ← settle_map_getD]
  cases settle (·.head.toOffset) none (Json.under "offset" members) <;>
    cases settle (·.head.toText) none (Json.under "text" members) <;> rfl

/-- The tag of a node is found under its name. -/
theorem Tag.toOption_ofMembers (members : List (String × Json)) :
    (Tag.ofMembers members).toOption = sole (·.head.toTag) "type" members := by
  have hstep (x : Option Tag) (name : String) (j : Json) (members : List (String × Json)) :
      Tag.search x ((name, j) :: members) =
        (if name = "type" then (put name x j.head.toTag).map id else .ok x) >>=
          (Tag.search · members) := by
    rw [Tag.search]
    split
    · cases put name x j.head.toTag <;> rfl
    · rfl
  have hloop := loop_one Tag.search (·.head.toTag) id (fun _ => rfl) hstep none members
  rw [Option.map_id] at hloop
  rw [Tag.ofMembers, toOption_bind, ← settle_bind_need "type"]
  exact congrArg (Option.bind · _) hloop

namespace Node

/-- The node of a kind with a mark whose fields are found under their names. -/
def gather (mark : Mark) (members : List (String × Json)) : Tag → Option Node
  | .alternate =>
    (sole ofJson "left" members).bind fun l =>
      (sole ofJson "right" members).map fun r => .alternate mark l r
  | .sequence => (sole listOfJson "body" members).map (.sequence mark)
  | .group style => (sole ofJson "body" members).map (.group mark style)
  | .quantified =>
    (sole ofJson "body" members).bind fun b =>
      (sole ofJson "quantifier" members).map fun q => .quantified mark b q
  | .quantifier =>
    (sole (·.head.toBound) "min" members).bind fun min =>
      (soleOr none (·.head.toUpperBound) "max" members).bind fun max =>
        (soleOr true (·.head.toFlag) "greedy" members).map fun greedy =>
          .quantifier mark { min, max } greedy
  | .charset =>
    (sole listOfJson "body" members).bind fun b =>
      (soleOr false (·.head.toFlag) "invert" members).map fun i => .charset mark b i
  | .range =>
    (sole ofJson "start" members).bind fun a =>
      (sole ofJson "end" members).map fun b => .range mark a b
  | .literal =>
    (sole (·.head.toCharacter) "body" members).bind fun c =>
      (soleOr false (·.head.toFlag) "escaped" members).map fun e => .literal mark c e
  | .numeric form => (sole (·.head.toText) "code" members).map (.numeric mark form)
  | .backReference => (sole (·.head.toGroupNumber) "code" members).map (.backReference mark)
  | .control => (sole (·.head.toCharacter) "code" members).map (.control mark)
  | .token kind => some (.token mark kind)
  | .unknown => some (.unknown mark)

/-- A form without places passes over all members. -/
theorem fillFrom_leaf {form : Form}
    (hfill : ∀ field scalar node nodes, form.fill field scalar node nodes = .ok form)
    (members : List (String × Json)) : fillFrom form members = .ok form := by
  induction members with
  | nil => rfl
  | cons m ms ih =>
    obtain ⟨field, j⟩ := m
    rw [fillFrom, hfill]
    exact ih

section Kinds

variable {α β : Type} {mark : Mark} {a b : String} (members : List (String × Json))

/-- A form without members is filled. -/
theorem fillFrom_nil (form : Form) : fillFrom form [] = .ok form := rfl

/-- A kind with one field finds it under its name. -/
theorem toOption_fillFrom_one (mk : Option α → Form) (node : α → Node)
    (read : Json → Except ShapeError α)
    (hcons : ∀ x name j members, fillFrom (mk x) ((name, j) :: members) =
      (if name = a then (put name x (read j)).map mk else .ok (mk x)) >>= (fillFrom · members))
    (hcomplete : ∀ x, (mk x).complete mark = need a x >>= fun x => .ok (node x)) :
    (fillFrom (mk none) members >>= (·.complete mark)).toOption =
      (sole read a members).map node := by
  rw [toOption_bind, loop_one fillFrom read mk fillFrom_nil hcons none members,
    ← settle_bind_need a]
  rcases settle read none (Json.under a members) with _ | x
  · rfl
  · show ((mk x).complete mark).toOption = _
    rw [hcomplete]
    cases x <;> rfl

/-- A kind with two fields that are needed finds them under their names. -/
theorem toOption_fillFrom_two (hab : a ≠ b) (mk : Option α → Option β → Form) (node : α → β → Node)
    (readA : Json → Except ShapeError α) (readB : Json → Except ShapeError β)
    (hcons : ∀ x y name j members, fillFrom (mk x y) ((name, j) :: members) =
      (if name = a then (put name x (readA j)).map (mk · y)
        else if name = b then (put name y (readB j)).map (mk x ·)
        else .ok (mk x y)) >>= (fillFrom · members))
    (hcomplete : ∀ x y, (mk x y).complete mark =
      need a x >>= fun x => need b y >>= fun y => .ok (node x y)) :
    (fillFrom (mk none none) members >>= (·.complete mark)).toOption =
      (sole readA a members).bind fun x => (sole readB b members).map (node x) := by
  rw [toOption_bind, loop_two fillFrom readA readB mk hab fillFrom_nil hcons none none members,
    ← settle_bind_need a, ← settle_bind_need b]
  rcases settle readA none (Json.under a members) with _ | x
  · rfl
  rcases settle readB none (Json.under b members) with _ | y
  · cases x <;> rfl
  · show ((mk x y).complete mark).toOption = _
    rw [hcomplete]
    cases x <;> cases y <;> rfl

/-- A kind with two fields of which the second has a default finds them under their names. -/
theorem toOption_fillFrom_default (hab : a ≠ b) (mk : Option α → Option β → Form)
    (node : α → β → Node) (default : β) (readA : Json → Except ShapeError α)
    (readB : Json → Except ShapeError β)
    (hcons : ∀ x y name j members, fillFrom (mk x y) ((name, j) :: members) =
      (if name = a then (put name x (readA j)).map (mk · y)
        else if name = b then (put name y (readB j)).map (mk x ·)
        else .ok (mk x y)) >>= (fillFrom · members))
    (hcomplete : ∀ x y, (mk x y).complete mark =
      need a x >>= fun x => .ok (node x (y.getD default))) :
    (fillFrom (mk none none) members >>= (·.complete mark)).toOption =
      (sole readA a members).bind fun x => (soleOr default readB b members).map (node x) := by
  rw [toOption_bind, loop_two fillFrom readA readB mk hab fillFrom_nil hcons none none members,
    ← settle_bind_need a, ← settle_map_getD]
  rcases settle readA none (Json.under a members) with _ | x
  · rfl
  rcases settle readB none (Json.under b members) with _ | y
  · cases x <;> rfl
  · show ((mk x y).complete mark).toOption = _
    rw [hcomplete]
    cases x <;> rfl

end Kinds

/-- Entering members one by one leads to the node whose fields are found under their names. -/
theorem toOption_fillFrom_blank (mark : Mark) (members : List (String × Json)) (tag : Tag) :
    (fillFrom (.blank tag) members >>= (·.complete mark)).toOption = gather mark members tag := by
  cases tag with
  | alternate =>
    exact toOption_fillFrom_two members (show "left" ≠ "right" by decide) .alternate
      (.alternate mark) ofJson ofJson (fun _ _ _ _ _ => rfl) fun _ _ => rfl
  | sequence =>
    exact toOption_fillFrom_one members .sequence (.sequence mark) listOfJson
      (fun _ _ _ _ => rfl) fun _ => rfl
  | group style =>
    exact toOption_fillFrom_one members (.group style) (.group mark style) ofJson
      (fun _ _ _ _ => rfl) fun _ => rfl
  | quantified =>
    exact toOption_fillFrom_two members (show "body" ≠ "quantifier" by decide) .quantified
      (.quantified mark) ofJson ofJson (fun _ _ _ _ _ => rfl) fun _ _ => rfl
  | quantifier =>
    rw [blank, toOption_bind, loop_three fillFrom (·.head.toBound) (·.head.toUpperBound)
      (·.head.toFlag) Form.quantifier (show "min" ≠ "max" by decide)
      (show "min" ≠ "greedy" by decide) (show "max" ≠ "greedy" by decide) fillFrom_nil
      (fun _ _ _ _ _ _ => rfl) none none none members, gather, ← settle_bind_need "min"]
    simp only [← settle_map_getD]
    rcases settle (·.head.toBound) none (Json.under "min" members) with _ | _ | _ <;>
      rcases settle (·.head.toUpperBound) none (Json.under "max" members) with _ | _ <;>
      rcases settle (·.head.toFlag) none (Json.under "greedy" members) with _ | _ <;> rfl
  | charset =>
    exact toOption_fillFrom_default members (show "body" ≠ "invert" by decide) .charset
      (.charset mark) false listOfJson (·.head.toFlag) (fun _ _ _ _ _ => rfl) fun _ _ => rfl
  | range =>
    exact toOption_fillFrom_two members (show "start" ≠ "end" by decide) .range (.range mark)
      ofJson ofJson (fun _ _ _ _ _ => rfl) fun _ _ => rfl
  | literal =>
    exact toOption_fillFrom_default members (show "body" ≠ "escaped" by decide) .literal
      (.literal mark) false (·.head.toCharacter) (·.head.toFlag) (fun _ _ _ _ _ => rfl)
      fun _ _ => rfl
  | numeric form =>
    exact toOption_fillFrom_one members (.numeric form) (.numeric mark form) (·.head.toText)
      (fun _ _ _ _ => rfl) fun _ => rfl
  | backReference =>
    exact toOption_fillFrom_one members .backReference (.backReference mark)
      (·.head.toGroupNumber) (fun _ _ _ _ => rfl) fun _ => rfl
  | control =>
    exact toOption_fillFrom_one members .control (.control mark) (·.head.toCharacter)
      (fun _ _ _ _ => rfl) fun _ => rfl
  | token kind =>
    rw [blank, fillFrom_leaf fun _ _ _ _ => rfl]
    rfl
  | unknown =>
    rw [blank, fillFrom_leaf fun _ _ _ _ => rfl]
    rfl

/-- An object is read as the node whose mark, tag and fields are found under their names. -/
theorem toOption_ofJson_object (members : List (String × Json)) :
    (ofJson (.object members)).toOption =
      (Mark.ofMembers members).toOption.bind fun mark =>
        (sole (·.head.toTag) "type" members).bind (gather mark members) := by
  rw [ofJson_object, toOption_bind]
  simp only [ofMembers, toOption_bind (Tag.ofMembers members), Tag.toOption_ofMembers,
    toOption_fillFrom_blank]

end Node

end PatternSampler
