import PatternSampler.Proofs.Members
import PatternSampler.Proofs.NodeDocument

/-!
# The shape of a pattern tree

Which documents hold a pattern tree is said here without a reader. Every kind of node has a list of
fields (`Tag.fields`), every field a kind of value, and a value is a node (`IsNode`) if it is an
object in which one member gives the tag, no field of the tag occurs twice, those without a default
occur, and each of them has a value of its kind. Other members may be there as they like.

The reader accepts exactly these values, and where a document is none of them it says that the shape
is wrong, and never that the text is malformed (`ofText_accepts_iff`). What is assumed of documents
is their grammar: a number is an integer if it is written as one and has at most sixty-four bits, as
`Json` says.
-/

namespace PatternSampler

/-- What the value of a field has to be. -/
inductive FieldKind where
  | offset
  | text
  | bound
  | upperBound
  | flag
  | character
  | groupNumber
  | node
  | nodes
  deriving DecidableEq, Repr

/-- A field of a node. One that has a default may be left out. -/
structure Field where
  name : String
  kind : FieldKind
  default : Option Json := none

/-- The fields that make up the mark of a node. -/
def Mark.fields : List Field :=
  [{ name := "offset", kind := .offset, default := some (.integer 0) },
    { name := "text", kind := .text, default := some (.string "") }]

/-- The fields that a node has for its kind. -/
def Tag.fields : Tag → List Field
  | .alternate => [{ name := "left", kind := .node }, { name := "right", kind := .node }]
  | .sequence => [{ name := "body", kind := .nodes }]
  | .group _ => [{ name := "body", kind := .node }]
  | .quantified => [{ name := "body", kind := .node }, { name := "quantifier", kind := .node }]
  | .quantifier =>
    [{ name := "min", kind := .bound },
      { name := "max", kind := .upperBound, default := some .null },
      { name := "greedy", kind := .flag, default := some (.bool true) }]
  | .charset =>
    [{ name := "body", kind := .nodes },
      { name := "invert", kind := .flag, default := some (.bool false) }]
  | .range => [{ name := "start", kind := .node }, { name := "end", kind := .node }]
  | .literal =>
    [{ name := "body", kind := .character },
      { name := "escaped", kind := .flag, default := some (.bool false) }]
  | .numeric _ => [{ name := "code", kind := .text }]
  | .backReference => [{ name := "code", kind := .groupNumber }]
  | .control => [{ name := "code", kind := .character }]
  | .token _ | .unknown => []

/-- A value gives a tag by its name or by its place in the order of tags. -/
inductive Tag.GivenBy : Json → Tag → Prop where
  | name (s : String) : GivenBy (.string s) (.ofName s)
  | place (n : Nat) : GivenBy (.integer n) (.ofIndex n)

/-- How often a name occurs among the members of an object. -/
def Json.occurrences (name : String) (members : List (String × Json)) : Nat :=
  (members.map (·.1)).count name

mutual

/-- A value is a node. It is an object in which one member gives the tag, and the fields of the mark
and of the tag each occur once, or not at all if they have a default, with values of their kinds. -/
inductive Json.IsNode : Json → Prop where
  | object {members : List (String × Json)} {value : Json} {tag : Tag}
      (htype : Json.occurrences "type" members = 1) (hvalue : ("type", value) ∈ members)
      (htag : Tag.GivenBy value tag)
      (honce : ∀ field ∈ Mark.fields ++ tag.fields, Json.occurrences field.name members ≤ 1)
      (hneeded : ∀ field ∈ Mark.fields ++ tag.fields, field.default = none →
        Json.occurrences field.name members = 1)
      (hkind : ∀ field ∈ Mark.fields ++ tag.fields, ∀ j, (field.name, j) ∈ members →
        FieldKind.Fits field.kind j) :
      Json.IsNode (.object members)

/-- A value is of the kind that a field asks for. -/
inductive FieldKind.Fits : FieldKind → Json → Prop where
  | offset {n : Int} (hleast : 0 ≤ n) (hmost : n ≤ 0xFFFFFFFFFFFFFFFF) :
      FieldKind.Fits .offset (.integer n)
  | text (s : String) : FieldKind.Fits .text (.string s)
  | bound {n : Int} (hleast : -0x8000000000000000 ≤ n) (hmost : n ≤ 0x7FFFFFFFFFFFFFFF) :
      FieldKind.Fits .bound (.integer n)
  | noUpperBound : FieldKind.Fits .upperBound .null
  | upperBound {n : Int} (hleast : -0x8000000000000000 ≤ n) (hmost : n ≤ 0x7FFFFFFFFFFFFFFF) :
      FieldKind.Fits .upperBound (.integer n)
  | flag (b : Bool) : FieldKind.Fits .flag (.bool b)
  | character (c : Char) : FieldKind.Fits .character (.string (String.singleton c))
  | groupNumber {n : Int} (hleast : 0 ≤ n) (hmost : n ≤ 0xFFFFFFFF) :
      FieldKind.Fits .groupNumber (.integer n)
  | node {j : Json} (h : Json.IsNode j) : FieldKind.Fits .node j
  | nodes {items : List Json} (h : ∀ j ∈ items, Json.IsNode j) :
      FieldKind.Fits .nodes (.array items)

end

namespace Json

/-- The values under a name are as many as its occurrences. -/
theorem length_under (name : String) (members : List (String × Json)) :
    (under name members).length = occurrences name members := by
  induction members with
  | nil => rfl
  | cons m ms ih =>
    obtain ⟨field, j⟩ := m
    have hcount : occurrences name ((field, j) :: ms) =
        occurrences name ms + if field = name then 1 else 0 := by
      rw [occurrences, List.map_cons, List.count_cons]
      simp only [beq_iff_eq]
      rfl
    rw [hcount, under, ← ih]
    split <;> rfl

/-- An integer is read if it lies between the bounds. -/
theorem isSome_toInteger {least most : Int} {expected : Expected} {j : Json} :
    (j.head.toInteger least most expected).toOption.isSome ↔
      ∃ n, j = .integer n ∧ least ≤ n ∧ n ≤ most := by
  cases j with
  | integer n =>
    rw [head, Head.toInteger]
    split
    · next hn => exact iff_of_true rfl ⟨n, rfl, hn⟩
    · next hn =>
      refine iff_of_false Bool.false_ne_true ?_
      rintro ⟨m, hm, hn'⟩
      cases hm
      exact hn hn'
  | _ =>
    refine iff_of_false Bool.false_ne_true ?_
    rintro ⟨_, h, -⟩
    cases h

end Json

namespace FieldKind

/-- The values that are read as offsets. -/
theorem isSome_toOffset {j : Json} : j.head.toOffset.toOption.isSome ↔ Fits .offset j := by
  rw [Json.Head.toOffset, toOption_map, Option.isSome_map, Json.isSome_toInteger]
  constructor
  · rintro ⟨n, rfl, hleast, hmost⟩
    exact .offset hleast hmost
  · intro h
    cases h with
    | offset hleast hmost => exact ⟨_, rfl, hleast, hmost⟩

/-- The values that are read as bounds. -/
theorem isSome_toBound {j : Json} : j.head.toBound.toOption.isSome ↔ Fits .bound j := by
  rw [Json.Head.toBound, toOption_map, Option.isSome_map, Json.isSome_toInteger]
  constructor
  · rintro ⟨n, rfl, hleast, hmost⟩
    exact .bound hleast hmost
  · intro h
    cases h with
    | bound hleast hmost => exact ⟨_, rfl, hleast, hmost⟩

/-- The values that are read as numbers of groups. -/
theorem isSome_toGroupNumber {j : Json} :
    j.head.toGroupNumber.toOption.isSome ↔ Fits .groupNumber j := by
  rw [Json.Head.toGroupNumber, toOption_map, Option.isSome_map, Json.isSome_toInteger]
  constructor
  · rintro ⟨n, rfl, hleast, hmost⟩
    exact .groupNumber hleast hmost
  · intro h
    cases h with
    | groupNumber hleast hmost => exact ⟨_, rfl, hleast, hmost⟩

/-- The values that are read as upper bounds. -/
theorem isSome_toUpperBound {j : Json} :
    j.head.toUpperBound.toOption.isSome ↔ Fits .upperBound j := by
  cases j with
  | null => exact iff_of_true rfl .noUpperBound
  | integer n =>
    show ((Json.Head.integer n).toBound.map some).toOption.isSome ↔ _
    rw [toOption_map, Option.isSome_map]
    refine (isSome_toBound (j := .integer n)).trans ⟨fun h => ?_, fun h => ?_⟩
    · cases h with
      | bound hleast hmost => exact .upperBound hleast hmost
    · cases h with
      | upperBound hleast hmost => exact .bound hleast hmost
  | _ => exact iff_of_false Bool.false_ne_true fun h => nomatch h

/-- The values that are read as texts. -/
theorem isSome_toText {j : Json} : j.head.toText.toOption.isSome ↔ Fits .text j := by
  cases j with
  | string s => exact iff_of_true rfl (.text s)
  | _ => exact iff_of_false Bool.false_ne_true fun h => nomatch h

/-- The values that are read as flags. -/
theorem isSome_toFlag {j : Json} : j.head.toFlag.toOption.isSome ↔ Fits .flag j := by
  cases j with
  | bool b => exact iff_of_true rfl (.flag b)
  | _ => exact iff_of_false Bool.false_ne_true fun h => nomatch h

/-- The values that are read as characters. -/
theorem isSome_toCharacter {j : Json} :
    j.head.toCharacter.toOption.isSome ↔ Fits .character j := by
  cases j with
  | string s =>
    rw [Json.head, Json.Head.toCharacter]
    split
    · next c hs =>
      have hsingle : s = String.singleton c := by
        rw [← String.toList_inj, hs, String.toList_singleton]
      exact iff_of_true rfl (hsingle ▸ .character c)
    · next hs =>
      refine iff_of_false Bool.false_ne_true fun h => ?_
      cases h with
      | character c => exact hs c (String.toList_singleton c)
  | _ =>
    refine iff_of_false Bool.false_ne_true fun h => ?_
    cases h

end FieldKind

/-- The values that are read as tags are those that give one. -/
theorem Tag.toOption_toTag {j : Json} {tag : Tag} :
    j.head.toTag.toOption = some tag ↔ Tag.GivenBy j tag := by
  constructor
  · intro h
    cases j with
    | string s =>
      cases h
      exact .name s
    | integer n =>
      rw [Json.head, Json.Head.toTag] at h
      split at h
      · next hn =>
        obtain ⟨m, rfl⟩ := Int.eq_ofNat_of_zero_le hn
        cases h
        exact .place m
      · cases h
    | _ => cases h
  · intro h
    cases h with
    | name s => rfl
    | place n => rfl

namespace Field

/-- A field is found among some members as it is asked for. -/
structure FoundIn (field : Field) (members : List (String × Json)) : Prop where
  once : Json.occurrences field.name members ≤ 1
  needed : field.default = none → Json.occurrences field.name members = 1
  kind : ∀ j, (field.name, j) ∈ members → field.kind.Fits j

variable {members : List (String × Json)}

/-- Whether a field is found as it is asked for shows in the values under its name. -/
theorem foundIn_iff (field : Field) :
    field.FoundIn members ↔
      match Json.under field.name members with
      | [] => field.default ≠ none
      | [j] => field.kind.Fits j
      | _ => False := by
  have hlength := Json.length_under field.name members
  have hmem (j : Json) : j ∈ Json.under field.name members ↔ (field.name, j) ∈ members :=
    Json.mem_under
  match hunder : Json.under field.name members with
  | [] =>
    rw [hunder] at hlength hmem
    constructor
    · intro h hdefault
      have hone := h.needed hdefault
      rw [← hlength] at hone
      cases hone
    · intro hdefault
      exact ⟨hlength ▸ Nat.zero_le 1, fun h => absurd h hdefault,
        fun j hj => nomatch (hmem j).mpr hj⟩
  | [j] =>
    rw [hunder] at hlength hmem
    constructor
    · intro h
      exact h.kind j ((hmem j).mp List.mem_cons_self)
    · intro hj
      refine ⟨Nat.le_of_eq hlength.symm, fun _ => hlength.symm, fun j' hj' => ?_⟩
      rw [List.mem_singleton.mp ((hmem j').mpr hj')]
      exact hj
  | j :: j' :: js =>
    rw [hunder, List.length_cons, List.length_cons] at hlength
    refine iff_of_false (fun h => ?_) id
    have honce := h.once
    omega

variable {α : Type} {read : Json → Except ShapeError α} {name : String} {kind : FieldKind}

/-- A field without a default gives a value if it is found as it is asked for. -/
theorem isSome_sole
    (hread : ∀ j, (name, j) ∈ members → ((read j).toOption.isSome ↔ kind.Fits j)) :
    (Form.sole read name members).isSome ↔ FoundIn { name, kind } members := by
  rw [foundIn_iff, Form.sole]
  cases hunder : Json.under name members with
  | nil => exact iff_of_false Bool.false_ne_true fun h => h rfl
  | cons j js =>
    cases js with
    | nil => exact hread j (Json.mem_under.mp (hunder ▸ List.mem_cons_self))
    | cons j' js => exact iff_of_false Bool.false_ne_true id

/-- A field with a default gives a value if it is found as it is asked for. -/
theorem isSome_soleOr {default : α} {written : Json}
    (hread : ∀ j, (name, j) ∈ members → ((read j).toOption.isSome ↔ kind.Fits j)) :
    (Form.soleOr default read name members).isSome ↔
      FoundIn { name, kind, default := some written } members := by
  rw [foundIn_iff, Form.soleOr]
  cases hunder : Json.under name members with
  | nil => exact iff_of_true rfl (Option.some_ne_none written)
  | cons j js =>
    cases js with
    | nil => exact hread j (Json.mem_under.mp (hunder ▸ List.mem_cons_self))
    | cons j' js => exact iff_of_false Bool.false_ne_true id

end Field

/-- A value and another make a third if there are both. -/
theorem isSome_bind_map {α β γ : Type} {x : Option α} {y : Option β} {f : α → β → γ} :
    (x.bind fun a => y.map (f a)).isSome ↔ x.isSome ∧ y.isSome := by
  cases x <;> cases y <;> simp

/-- Three values make a fourth if there are all of them. -/
theorem isSome_bind_bind_map {α β γ δ : Type} {x : Option α} {y : Option β} {z : Option γ}
    {f : α → β → γ → δ} :
    (x.bind fun a => y.bind fun b => z.map (f a b)).isSome ↔ x.isSome ∧ y.isSome ∧ z.isSome := by
  cases x <;> cases y <;> cases z <;> simp

open PatternSampler.Field

/-- The mark of a node is read if its fields are found as they are asked for. -/
theorem Mark.isSome_ofMembers (members : List (String × Json)) :
    (ofMembers members).toOption.isSome ↔ ∀ field ∈ fields, field.FoundIn members := by
  rw [toOption_ofMembers, isSome_bind_map,
    isSome_soleOr fun j _ => FieldKind.isSome_toOffset (j := j),
    isSome_soleOr fun j _ => FieldKind.isSome_toText (j := j), fields, List.forall_mem_cons,
    List.forall_mem_singleton]

/-- The fields of a kind are gathered if they are found as they are asked for. -/
theorem Node.isSome_gather (mark : Mark) {members : List (String × Json)}
    (hnode : ∀ m ∈ members, ((ofJson m.2).toOption.isSome ↔ FieldKind.node.Fits m.2))
    (hnodes : ∀ m ∈ members, ((listOfJson m.2).toOption.isSome ↔ FieldKind.nodes.Fits m.2))
    (tag : Tag) :
    (gather mark members tag).isSome ↔ ∀ field ∈ tag.fields, field.FoundIn members := by
  have hnode (name : String) :
      (Form.sole ofJson name members).isSome ↔ FoundIn { name, kind := .node } members :=
    isSome_sole fun j hj => hnode (name, j) hj
  have hnodes (name : String) :
      (Form.sole listOfJson name members).isSome ↔ FoundIn { name, kind := .nodes } members :=
    isSome_sole fun j hj => hnodes (name, j) hj
  have hflag (name : String) (default : Bool) :
      (Form.soleOr default (·.head.toFlag) name members).isSome ↔
        FoundIn { name, kind := .flag, default := some (.bool default) } members :=
    isSome_soleOr fun j _ => FieldKind.isSome_toFlag (j := j)
  have hcharacter (name : String) :
      (Form.sole (·.head.toCharacter) name members).isSome ↔
        FoundIn { name, kind := .character } members :=
    isSome_sole fun j _ => FieldKind.isSome_toCharacter (j := j)
  cases tag with
  | alternate | quantified | range =>
    rw [gather, isSome_bind_map, hnode, hnode, Tag.fields, List.forall_mem_cons,
      List.forall_mem_singleton]
  | sequence => rw [gather, Option.isSome_map, hnodes, Tag.fields, List.forall_mem_singleton]
  | group style => rw [gather, Option.isSome_map, hnode, Tag.fields, List.forall_mem_singleton]
  | quantifier =>
    rw [gather, isSome_bind_bind_map, isSome_sole fun j _ => FieldKind.isSome_toBound (j := j),
      isSome_soleOr fun j _ => FieldKind.isSome_toUpperBound (j := j), hflag, Tag.fields,
      List.forall_mem_cons, List.forall_mem_cons, List.forall_mem_singleton]
  | charset =>
    rw [gather, isSome_bind_map, hnodes, hflag, Tag.fields, List.forall_mem_cons,
      List.forall_mem_singleton]
  | literal =>
    rw [gather, isSome_bind_map, hcharacter, hflag, Tag.fields, List.forall_mem_cons,
      List.forall_mem_singleton]
  | numeric form =>
    rw [gather, Option.isSome_map, isSome_sole fun j _ => FieldKind.isSome_toText (j := j),
      Tag.fields, List.forall_mem_singleton]
  | backReference =>
    rw [gather, Option.isSome_map, isSome_sole fun j _ => FieldKind.isSome_toGroupNumber (j := j),
      Tag.fields, List.forall_mem_singleton]
  | control => rw [gather, Option.isSome_map, hcharacter, Tag.fields, List.forall_mem_singleton]
  | token kind | unknown =>
    refine iff_of_true rfl fun field hfield => ?_
    cases hfield

/-- A value is read under a name if it is the only one there. -/
theorem Form.sole_eq_some {α : Type} {read : Json → Except ShapeError α} {name : String}
    {members : List (String × Json)} {a : α} :
    sole read name members = some a ↔
      ∃ j, Json.under name members = [j] ∧ (read j).toOption = some a := by
  rw [sole]
  constructor
  · intro h
    split at h
    · next j hunder => exact ⟨j, hunder, h⟩
    · cases h
  · rintro ⟨j, hunder, hread⟩
    rw [hunder]
    exact hread

/-- A value that occurs under a name of one occurrence is the only one there. -/
theorem Json.under_eq_singleton {name : String} {members : List (String × Json)} {j : Json} :
    under name members = [j] ↔ occurrences name members = 1 ∧ (name, j) ∈ members := by
  rw [← length_under, List.length_eq_one_iff, ← mem_under]
  constructor
  · intro hunder
    exact ⟨⟨j, hunder⟩, hunder ▸ List.mem_singleton_self j⟩
  · rintro ⟨⟨j', hunder⟩, hj⟩
    rw [hunder] at hj ⊢
    rw [List.mem_singleton.mp hj]

/-- An object is read if it is a node, provided that this holds of the values in it. -/
theorem Node.isSome_ofJson_object {members : List (String × Json)}
    (hnode : ∀ m ∈ members, ((ofJson m.2).toOption.isSome ↔ FieldKind.node.Fits m.2))
    (hnodes : ∀ m ∈ members, ((listOfJson m.2).toOption.isSome ↔ FieldKind.nodes.Fits m.2)) :
    (ofJson (.object members)).toOption.isSome ↔ Json.IsNode (.object members) := by
  have hmarks := Mark.isSome_ofMembers members
  have hgather (mark : Mark) := isSome_gather mark hnode hnodes
  rw [toOption_ofJson_object]
  constructor
  · intro h
    obtain ⟨node, h⟩ := Option.isSome_iff_exists.mp h
    obtain ⟨mark, hmark, h⟩ := Option.bind_eq_some_iff.mp h
    obtain ⟨tag, htag, h⟩ := Option.bind_eq_some_iff.mp h
    obtain ⟨value, hunder, hgiven⟩ := Form.sole_eq_some.mp htag
    obtain ⟨htype, hvalue⟩ := Json.under_eq_singleton.mp hunder
    have hfields : ∀ field ∈ Mark.fields ++ tag.fields, field.FoundIn members :=
      List.forall_mem_append.mpr
        ⟨hmarks.mp (Option.isSome_of_mem hmark), (hgather mark tag).mp (Option.isSome_of_mem h)⟩
    exact .object htype hvalue (Tag.toOption_toTag.mp hgiven)
      (fun field hfield => (hfields field hfield).once)
      (fun field hfield => (hfields field hfield).needed)
      (fun field hfield => (hfields field hfield).kind)
  · intro h
    cases h with
    | @object _ value tag htype hvalue hgiven honce hneeded hkind =>
      have hfields : ∀ field ∈ Mark.fields ++ tag.fields, field.FoundIn members :=
        fun field hfield => ⟨honce field hfield, hneeded field hfield, hkind field hfield⟩
      obtain ⟨hfound, hown⟩ := List.forall_mem_append.mp hfields
      obtain ⟨mark, hmark⟩ := Option.isSome_iff_exists.mp (hmarks.mpr hfound)
      have htag : Form.sole (·.head.toTag) "type" members = some tag := Form.sole_eq_some.mpr
        ⟨value, Json.under_eq_singleton.mpr ⟨htype, hvalue⟩, Tag.toOption_toTag.mpr hgiven⟩
      rw [hmark, Option.bind_some, htag, Option.bind_some]
      exact (hgather mark tag).mpr hown

/-- Being a node is what is asked of the value of a field that holds one. -/
theorem FieldKind.fits_node {j : Json} : Fits .node j ↔ j.IsNode := by
  constructor
  · intro h
    cases h with
    | node h => exact h
  · exact .node

namespace Node

/-- Items are read one by one. -/
theorem toOption_ofItems_cons (j : Json) (js : List Json) :
    (ofItems (j :: js)).toOption =
      (ofJson j).toOption.bind fun n => (ofItems js).toOption.map (n :: ·) := by
  rw [ofItems, toOption_bind]
  congr 1
  funext n
  rw [toOption_bind]
  cases ofItems js <;> rfl

mutual

/-- The values that are read as nodes. -/
theorem isSome_ofJson (j : Json) : (ofJson j).toOption.isSome ↔ j.IsNode := by
  match j with
  | .object members =>
    have hmembers := isSome_ofMember members
    exact isSome_ofJson_object (fun m hm => (hmembers m hm).1) fun m hm => (hmembers m hm).2
  | .null | .bool _ | .integer _ | .float _ | .string _ | .array _ =>
    exact iff_of_false Bool.false_ne_true fun h => nomatch h

/-- The values that are read as lists of nodes. -/
theorem isSome_listOfJson (j : Json) :
    (listOfJson j).toOption.isSome ↔ FieldKind.nodes.Fits j := by
  match j with
  | .array items =>
    refine (isSome_ofItems items).trans ⟨.nodes, fun h => ?_⟩
    cases h with
    | nodes h => exact h
  | .null | .bool _ | .integer _ | .float _ | .string _ | .object _ =>
    exact iff_of_false Bool.false_ne_true fun h => nomatch h

/-- The items that are read one by one. -/
theorem isSome_ofItems (items : List Json) :
    (ofItems items).toOption.isSome ↔ ∀ j ∈ items, j.IsNode := by
  match items with
  | [] => exact iff_of_true rfl fun j hj => nomatch hj
  | j :: js =>
    rw [toOption_ofItems_cons, isSome_bind_map, isSome_ofJson j, isSome_ofItems js,
      List.forall_mem_cons]

/-- The members whose values are read as nodes or as lists of nodes. -/
theorem isSome_ofMember (members : List (String × Json)) :
    ∀ m ∈ members, ((ofJson m.2).toOption.isSome ↔ FieldKind.node.Fits m.2) ∧
      ((listOfJson m.2).toOption.isSome ↔ FieldKind.nodes.Fits m.2) := by
  match members with
  | [] => exact fun m hm => nomatch hm
  | (name, j) :: ms =>
    rw [List.forall_mem_cons]
    exact ⟨⟨(isSome_ofJson j).trans FieldKind.fits_node.symm, isSome_listOfJson j⟩,
      isSome_ofMember ms⟩

end

/-- A text that is a JSON document holds a pattern tree if and only if its value has the shape of
one. If it has not, the shape is what is reported, so a document is never said to be malformed or
to be cut short. -/
theorem ofText_accepts_iff {text : String} {j : Json} (h : Json.ofText text = .ok j) :
    ((∃ n, Node.ofText text = .ok n) ↔ j.IsNode) ∧
      (¬j.IsNode → ∃ e, Node.ofText text = .error (.wrongShape e)) := by
  have hsome := isSome_ofJson j
  rw [ofText_eq_ofJson h]
  cases hread : ofJson j with
  | error e =>
    rw [hread] at hsome
    refine ⟨iff_of_false (fun ⟨n, hn⟩ => nomatch hn) (mt hsome.mpr Bool.false_ne_true), fun _ => ?_⟩
    exact ⟨e, rfl⟩
  | ok n =>
    rw [hread] at hsome
    have hnode : j.IsNode := hsome.mp rfl
    exact ⟨iff_of_true ⟨n, rfl⟩ hnode, fun hnot => absurd hnode hnot⟩

/-- A set of characters whose tag is given by its place, with a name that occurs twice and means
nothing, and with an entry of an unknown kind. -/
def looseCharset : Json :=
  .object [("note", .array []), ("body", .array [.object [("left", .bool true),
    ("type", .string "comment"), ("text", .string "a")]]), ("type", .integer 8), ("note", .null)]

/-- The text of such a set is a document that holds a pattern tree. -/
theorem ofText_accepts_looseCharset :
    Json.ofText looseCharset.render = .ok looseCharset ∧ looseCharset.IsNode ∧
      ∃ n, Node.ofText looseCharset.render = .ok n := by
  have hplain : looseCharset.Plain := by
    simp [looseCharset, Json.Plain, Json.PlainMembers, Json.PlainItems, Json.Leaf]
  have hdocument := Json.ofText_render hplain (by decide)
  have hnode : looseCharset.IsNode := (isSome_ofJson looseCharset).mp (by decide +kernel)
  exact ⟨hdocument, hnode, (ofText_accepts_iff hdocument).1.mpr hnode⟩

end Node

end PatternSampler
