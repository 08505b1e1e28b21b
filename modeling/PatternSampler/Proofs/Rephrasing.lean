import Mathlib.Data.List.Nodup
import PatternSampler.Proofs.NodeShape
import PatternSampler.Proofs.Respelling

/-!
# Other ways to write a pattern tree

A pattern tree can be written down in more than one document. `Json.Rephrased` relates two values
that differ, in any number of places, only in what has no meaning for a tree: the order of members,
a tag given by its name or by its place, which unknown tag it is, a default that is written out, and
members that the tag has no use for. `Rewritten` adds to this the spelling of the texts.

What is read as a node is the same on both sides (`ofText_rewritten`). A value has to be compared
with the other in three ways at once, for it may stand where a scalar, a node or a list of nodes is
looked for (`Json.SameReading`).
-/

namespace PatternSampler

namespace Json

/-- Two values that differ only in what has no meaning for a pattern tree. -/
inductive Rephrased : Json → Json → Prop where
  | refl (j : Json) : Rephrased j j
  | symm {j j' : Json} (h : Rephrased j j') : Rephrased j' j
  | trans {j j' j'' : Json} (h : Rephrased j j') (h' : Rephrased j' j'') : Rephrased j j''
  /-- An item of an array is rephrased. -/
  | item {j j' : Json} (h : Rephrased j j') (before after : List Json) :
      Rephrased (.array (before ++ j :: after)) (.array (before ++ j' :: after))
  /-- The first member of an object is rephrased. -/
  | member {j j' : Json} (h : Rephrased j j') (name : String) (members : List (String × Json)) :
      Rephrased (.object ((name, j) :: members)) (.object ((name, j') :: members))
  /-- The members come in another order. -/
  | order {members members' : List (String × Json)} (h : members.Perm members') :
      Rephrased (.object members) (.object members')
  /-- A known tag is given by its place instead of its name. -/
  | place {i : Nat} {tag : Tag} (h : Tag.known[i]? = some tag) (members : List (String × Json)) :
      Rephrased (.object (("type", .string tag.name) :: members))
        (.object (("type", .integer i) :: members))
  /-- An unknown tag stands for another. -/
  | unrecognised {j j' : Json} (h : Tag.GivenBy j .unknown) (h' : Tag.GivenBy j' .unknown)
      (members : List (String × Json)) :
      Rephrased (.object (("type", j) :: members)) (.object (("type", j') :: members))
  /-- A default is written out, of a field of the mark or of the tag that is given. -/
  | default {members : List (String × Json)} {field : Field} {written : Json}
      (hfield : field ∈ Mark.fields ∨
        ∃ value tag, ("type", value) ∈ members ∧ Tag.GivenBy value tag ∧ field ∈ tag.fields)
      (hwritten : field.default = some written) (habsent : occurrences field.name members = 0) :
      Rephrased (.object members) (.object ((field.name, written) :: members))
  /-- A member is added that is neither a tag nor a field of the mark or of a tag that is given. -/
  | extra {members : List (String × Json)} {name : String} (htype : name ≠ "type")
      (hmark : ∀ field ∈ Mark.fields, field.name ≠ name)
      (hown : ∀ value tag, ("type", value) ∈ members → Tag.GivenBy value tag →
        ∀ field ∈ tag.fields, field.name ≠ name) (j : Json) :
      Rephrased (.object members) (.object ((name, j) :: members))

/-- Two values that are read alike, whatever is looked for. -/
structure SameReading (j j' : Json) : Prop where
  head : j.head = j'.head
  node : (Node.ofJson j).toOption = (Node.ofJson j').toOption
  nodes : (Node.listOfJson j).toOption = (Node.listOfJson j').toOption

/-- Two lists of values, under the same name of two objects, that are read alike: there are none,
one on each side, or too many on both. -/
inductive Alike : List Json → List Json → Prop where
  | none : Alike [] []
  | one {j j' : Json} (h : SameReading j j') : Alike [j] [j']
  | many {js js' : List Json} (hjs : 1 < js.length) (hjs' : 1 < js'.length) : Alike js js'

/-- A value is read like itself. -/
theorem SameReading.refl (j : Json) : SameReading j j := ⟨rfl, rfl, rfl⟩

/-- Values are read alike in either order. -/
theorem SameReading.symm {j j' : Json} (h : SameReading j j') : SameReading j' j :=
  ⟨h.head.symm, h.node.symm, h.nodes.symm⟩

/-- Values that are read like a third one are read alike. -/
theorem SameReading.trans {j j' j'' : Json} (h : SameReading j j') (h' : SameReading j' j'') :
    SameReading j j'' :=
  ⟨h.head.trans h'.head, h.node.trans h'.node, h.nodes.trans h'.nodes⟩

namespace Alike

/-- Values are read alike in front of the same others if they are alone. -/
theorem cons {j j' : Json} (h : SameReading j j') (js : List Json) :
    Alike (j :: js) (j' :: js) := by
  cases js with
  | nil => exact .one h
  | cons k js =>
    have hlength (j : Json) : 1 < (j :: k :: js).length := by
      rw [List.length_cons, List.length_cons]
      omega
    exact .many (hlength j) (hlength j')

/-- Values are read like themselves. -/
theorem refl (js : List Json) : Alike js js := by
  cases js with
  | nil => exact .none
  | cons j js => exact cons (.refl j) js

/-- Values are read alike in any order. -/
theorem of_perm {js js' : List Json} (h : js.Perm js') : Alike js js' := by
  match js with
  | [] =>
    rw [List.nil_perm.mp h]
    exact .none
  | [j] =>
    rw [← List.singleton_perm.mp h]
    exact refl [j]
  | j :: k :: js =>
    have hlength : 1 < (j :: k :: js).length := by
      rw [List.length_cons, List.length_cons]
      omega
    exact .many hlength (h.length_eq ▸ hlength)

end Alike

/-- The values under a name, found by a filter. -/
theorem under_eq_filterMap (name : String) (members : List (String × Json)) :
    under name members = members.filterMap fun m => if m.1 = name then some m.2 else none := by
  induction members with
  | nil => rfl
  | cons m ms ih =>
    obtain ⟨field, j⟩ := m
    rw [under, List.filterMap_cons, ih]
    by_cases h : field = name
    · rw [if_pos h, if_pos h]
    · rw [if_neg h, if_neg h]

/-- The values under a name are in another order if the members are. -/
theorem perm_under {members members' : List (String × Json)} (h : members.Perm members')
    (name : String) : (under name members).Perm (under name members') := by
  rw [under_eq_filterMap, under_eq_filterMap]
  exact h.filterMap _

end Json

open Json

namespace Field

/-- What is found of a field in two objects is read alike, or the second has a default that the
first leaves out. -/
def Agrees (field : Field) (members members' : List (String × Json)) : Prop :=
  Alike (under field.name members) (under field.name members') ∨
    ∃ written, field.default = some written ∧ under field.name members = [] ∧
      under field.name members' = [written]

end Field

/-- A reader that reads values alike that are. -/
def Respects {α : Type} (read : Json → Except ShapeError α) : Prop :=
  ∀ j j', SameReading j j' → (read j).toOption = (read j').toOption

/-- A reader of heads respects what is read alike. -/
theorem respects_head {α : Type} (read : Head → Except ShapeError α) :
    Respects (fun j => read j.head) :=
  fun _ _ h => congrArg (fun head => (read head).toOption) h.head

namespace Form

variable {α : Type} {read : Json → Except ShapeError α} {name : String}
  {members members' : List (String × Json)}

/-- Nothing is read under a name that occurs too often. -/
theorem sole_eq_none (h : 1 < (under name members).length) : sole read name members = none := by
  rw [sole]
  split
  · next j hunder =>
    rw [hunder] at h
    exact absurd h (Nat.lt_irrefl 1)
  · rfl

/-- Nothing is read under a name that occurs too often, even if there is a default. -/
theorem soleOr_eq_none {default : α} (h : 1 < (under name members).length) :
    soleOr default read name members = none := by
  rw [soleOr]
  split
  · next hunder =>
    rw [hunder] at h
    exact absurd h (Nat.not_lt_zero 1)
  · next j hunder =>
    rw [hunder] at h
    exact absurd h (Nat.lt_irrefl 1)
  · rfl

/-- Values that are read alike give the same sole value. -/
theorem sole_congr (hread : Respects read)
    (h : Alike (under name members) (under name members')) :
    sole read name members = sole read name members' := by
  generalize hjs : under name members = js at h
  generalize hjs' : under name members' = js' at h
  cases h with
  | none => rw [sole, sole, hjs, hjs']
  | @one j j' h =>
    rw [sole, sole, hjs, hjs']
    exact hread j j' h
  | many hlength hlength' =>
    rw [sole_eq_none (hjs ▸ hlength), sole_eq_none (hjs' ▸ hlength')]

/-- A field without a default is read alike where it agrees. -/
theorem sole_agrees (hread : Respects read) {kind : FieldKind}
    (h : Field.Agrees { name, kind } members members') :
    sole read name members = sole read name members' := by
  rcases h with h | ⟨written, hwritten, -⟩
  · exact sole_congr hread h
  · cases hwritten

/-- A field with a default is read alike where it agrees. -/
theorem soleOr_agrees (hread : Respects read) {default : α} {kind : FieldKind} {written : Json}
    (hdefault : (read written).toOption = some default)
    (h : Field.Agrees { name, kind, default := some written } members members') :
    soleOr default read name members = soleOr default read name members' := by
  rcases h with h | ⟨written', hwritten, hjs, hjs'⟩
  · generalize hjs : under name members = js at h
    generalize hjs' : under name members' = js' at h
    cases h with
    | none => rw [soleOr, soleOr, hjs, hjs']
    | @one j j' h =>
      rw [soleOr, soleOr, hjs, hjs']
      exact hread j j' h
    | many hlength hlength' =>
      rw [soleOr_eq_none (hjs ▸ hlength), soleOr_eq_none (hjs' ▸ hlength')]
  · cases hwritten
    rw [soleOr, soleOr, hjs, hjs']
    exact hdefault.symm

end Form

open Form

/-- The mark of a node is the same if its fields agree. -/
theorem Mark.ofMembers_agrees {members members' : List (String × Json)}
    (h : ∀ field ∈ fields, field.Agrees members members') :
    (ofMembers members).toOption = (ofMembers members').toOption := by
  rw [fields, List.forall_mem_cons, List.forall_mem_singleton] at h
  rw [toOption_ofMembers, toOption_ofMembers, soleOr_agrees (respects_head _) rfl h.1,
    soleOr_agrees (respects_head _) rfl h.2]

/-- A node of a known kind is the same if the fields of the kind agree. -/
theorem Node.gather_agrees (mark : Mark) {members members' : List (String × Json)} {tag : Tag}
    (h : ∀ field ∈ tag.fields, field.Agrees members members') :
    gather mark members tag = gather mark members' tag := by
  have hnode : Respects ofJson := fun _ _ h => h.node
  have hnodes : Respects listOfJson := fun _ _ h => h.nodes
  cases tag with
  | alternate | quantified | range =>
    rw [Tag.fields, List.forall_mem_cons, List.forall_mem_singleton] at h
    rw [gather, gather, sole_agrees hnode h.1, sole_agrees hnode h.2]
  | sequence =>
    rw [Tag.fields, List.forall_mem_singleton] at h
    rw [gather, gather, sole_agrees hnodes h]
  | group style =>
    rw [Tag.fields, List.forall_mem_singleton] at h
    rw [gather, gather, sole_agrees hnode h]
  | quantifier =>
    rw [Tag.fields, List.forall_mem_cons, List.forall_mem_cons, List.forall_mem_singleton] at h
    rw [gather, gather, sole_agrees (respects_head _) h.1,
      soleOr_agrees (respects_head _) rfl h.2.1, soleOr_agrees (respects_head _) rfl h.2.2]
  | charset =>
    rw [Tag.fields, List.forall_mem_cons, List.forall_mem_singleton] at h
    rw [gather, gather, sole_agrees hnodes h.1, soleOr_agrees (respects_head _) rfl h.2]
  | literal =>
    rw [Tag.fields, List.forall_mem_cons, List.forall_mem_singleton] at h
    rw [gather, gather, sole_agrees (respects_head _) h.1, soleOr_agrees (respects_head _) rfl h.2]
  | numeric | backReference | control =>
    rw [Tag.fields, List.forall_mem_singleton] at h
    rw [gather, gather, sole_agrees (respects_head _) h]
  | token | unknown => rfl

/-- Two objects are read alike if their marks agree, if they give the same tag and if the fields of
that tag agree. -/
theorem sameReading_object {members members' : List (String × Json)}
    (hmark : ∀ field ∈ Mark.fields, field.Agrees members members')
    (htype : sole (·.head.toTag) "type" members = sole (·.head.toTag) "type" members')
    (hown : ∀ tag, sole (·.head.toTag) "type" members = some tag →
      ∀ field ∈ tag.fields, field.Agrees members members') :
    SameReading (.object members) (.object members') := by
  refine ⟨rfl, ?_, rfl⟩
  rw [Node.toOption_ofJson_object, Node.toOption_ofJson_object, Mark.ofMembers_agrees hmark,
    ← htype]
  cases htag : sole (·.head.toTag) "type" members with
  | none => rfl
  | some tag =>
    have hgather (mark : Mark) := Node.gather_agrees mark (hown tag htag)
    simp only [Option.bind_some, hgather]

/-- A field has no name in common with the tag. -/
theorem Tag.field_ne_type (tag : Tag) {field : Field} (hfield : field ∈ Mark.fields ++ tag.fields) :
    field.name ≠ "type" := by
  have hnames : "type" ∉ (Mark.fields ++ tag.fields).map (·.name) := by
    cases tag <;> simp [Mark.fields, Tag.fields]
  intro hname
  exact hnames (hname ▸ List.mem_map_of_mem hfield)

/-- The fields of a node have names of their own. -/
theorem Tag.nodup_names (tag : Tag) : ((Mark.fields ++ tag.fields).map (·.name)).Nodup := by
  cases tag <;> simp [Mark.fields, Tag.fields]

namespace Json

variable {members members' : List (String × Json)} {name : String}

/-- A member is not found under another name. -/
theorem under_cons_of_ne {field : String} (h : field ≠ name) (j : Json)
    (members : List (String × Json)) : under name ((field, j) :: members) = under name members :=
  if_neg h

/-- A member is found under its name, before those that follow it. -/
theorem under_cons_self (name : String) (j : Json) (members : List (String × Json)) :
    under name ((name, j) :: members) = j :: under name members :=
  if_pos rfl

/-- A tag that is found is given by a member. -/
theorem givenBy_of_sole {tag : Tag} (h : sole (·.head.toTag) "type" members = some tag) :
    ∃ value, under "type" members = [value] ∧ Tag.GivenBy value tag := by
  obtain ⟨value, hunder, hread⟩ := sole_eq_some.mp h
  exact ⟨value, hunder, Tag.toOption_toTag.mp hread⟩

/-- Objects are read alike if the values under every name are. -/
theorem sameReading_of_alike
    (h : ∀ name, Alike (under name members) (under name members')) :
    SameReading (.object members) (.object members') :=
  sameReading_object (fun field _ => .inl (h field.name))
    (sole_congr (respects_head Head.toTag) (h "type")) fun _ _ field _ => .inl (h field.name)

/-- Objects are read alike if they differ in the first member only, and that is. -/
theorem sameReading_member {j j' : Json} (h : SameReading j j') (name : String)
    (members : List (String × Json)) :
    SameReading (.object ((name, j) :: members)) (.object ((name, j') :: members)) := by
  refine sameReading_of_alike fun name' => ?_
  by_cases hname : name = name'
  · rw [hname, under_cons_self, under_cons_self]
    exact .cons h _
  · rw [under_cons_of_ne hname, under_cons_of_ne hname]
    exact .refl _

/-- Objects are read alike if they give the same tag in different ways. -/
theorem sameReading_type {j j' : Json} (h : j.head.toTag.toOption = j'.head.toTag.toOption)
    (members : List (String × Json)) :
    SameReading (.object (("type", j) :: members)) (.object (("type", j') :: members)) := by
  have hagrees (tag : Tag) (field : Field) (hfield : field ∈ Mark.fields ++ tag.fields) :
      field.Agrees (("type", j) :: members) (("type", j') :: members) := by
    have hne := (tag.field_ne_type hfield).symm
    rw [Field.Agrees, under_cons_of_ne hne, under_cons_of_ne hne]
    exact .inl (.refl _)
  refine sameReading_object
    (fun field hfield => hagrees .unknown field (List.mem_append_left _ hfield)) ?_
    fun tag _ field hfield => hagrees tag field (List.mem_append_right _ hfield)
  rw [sole, sole, under_cons_self, under_cons_self]
  cases under "type" members with
  | nil => exact h
  | cons k js => rfl

/-- Objects are read alike if one of them writes out a default. -/
theorem sameReading_default {field : Field} {written : Json}
    (hfield : field ∈ Mark.fields ∨
      ∃ value tag, ("type", value) ∈ members ∧ Tag.GivenBy value tag ∧ field ∈ tag.fields)
    (hwritten : field.default = some written) (habsent : occurrences field.name members = 0) :
    SameReading (.object members) (.object ((field.name, written) :: members)) := by
  have hnone : under field.name members = [] :=
    List.length_eq_zero_iff.mp ((length_under field.name members).trans habsent)
  have hagrees (tag : Tag) (hmem : field ∈ Mark.fields ++ tag.fields) (field' : Field)
      (hmem' : field' ∈ Mark.fields ++ tag.fields) :
      field'.Agrees members ((field.name, written) :: members) := by
    by_cases hname : field.name = field'.name
    · have hsame : field = field' := List.inj_on_of_nodup_map tag.nodup_names hmem hmem' hname
      subst hsame
      rw [Field.Agrees, under_cons_self, hnone]
      exact .inr ⟨written, hwritten, rfl, rfl⟩
    · rw [Field.Agrees, under_cons_of_ne hname]
      exact .inl (.refl _)
  -- The field belongs to the mark, or to each tag that may be found.
  obtain ⟨tag, hmem⟩ : ∃ tag : Tag, field ∈ Mark.fields ++ tag.fields := by
    rcases hfield with hmark | ⟨-, tag, -, -, hown⟩
    · exact ⟨.unknown, List.mem_append_left _ hmark⟩
    · exact ⟨tag, List.mem_append_right _ hown⟩
  refine sameReading_object
    (fun field' hfield' => hagrees tag hmem field' (List.mem_append_left _ hfield')) ?_
    fun tag' htag' field' hfield' => ?_
  · rw [sole, sole, under_cons_of_ne (tag.field_ne_type hmem)]
  · have hmem' : field ∈ Mark.fields ++ tag'.fields := by
      rcases hfield with hmark | ⟨value, tag, hvalue, hgiven, hown⟩
      · exact List.mem_append_left _ hmark
      · obtain ⟨value', hunder, hgiven'⟩ := givenBy_of_sole htag'
        have hsame : value = value' := List.mem_singleton.mp (hunder ▸ mem_under.mpr hvalue)
        subst hsame
        have htags : some tag = some tag' :=
          (Tag.toOption_toTag.mpr hgiven).symm.trans (Tag.toOption_toTag.mpr hgiven')
        rw [← Option.some.inj htags]
        exact List.mem_append_right _ hown
    exact hagrees tag' hmem' field' (List.mem_append_right _ hfield')

/-- Objects are read alike if one of them has a member more that nothing is read from. -/
theorem sameReading_extra (htype : name ≠ "type") (hmark : ∀ field ∈ Mark.fields, field.name ≠ name)
    (hown : ∀ value tag, ("type", value) ∈ members → Tag.GivenBy value tag →
      ∀ field ∈ tag.fields, field.name ≠ name) (j : Json) :
    SameReading (.object members) (.object ((name, j) :: members)) := by
  have hagrees {field : Field} (hne : field.name ≠ name) :
      field.Agrees members ((name, j) :: members) := by
    rw [Field.Agrees, under_cons_of_ne hne.symm]
    exact .inl (.refl _)
  refine sameReading_object (fun field hfield => hagrees (hmark field hfield)) ?_
    fun tag htag field hfield => ?_
  · rw [sole, sole, under_cons_of_ne htype]
  · obtain ⟨value, hunder, hgiven⟩ := givenBy_of_sole htag
    have hvalue : ("type", value) ∈ members := mem_under.mp (hunder ▸ List.mem_singleton_self value)
    exact hagrees (hown value tag hvalue hgiven field hfield)

/-- Arrays are read alike if they differ in one item only, and that is. -/
theorem sameReading_item {j j' : Json} (h : SameReading j j') (before after : List Json) :
    SameReading (.array (before ++ j :: after)) (.array (before ++ j' :: after)) := by
  refine ⟨rfl, rfl, ?_⟩
  show (Node.ofItems _).toOption = (Node.ofItems _).toOption
  induction before with
  | nil =>
    rw [List.nil_append, List.nil_append, Node.toOption_ofItems_cons, Node.toOption_ofItems_cons,
      h.node]
  | cons k ks ih =>
    rw [List.cons_append, List.cons_append, Node.toOption_ofItems_cons, Node.toOption_ofItems_cons,
      ih]

/-- A value is read like every other way to write it. -/
theorem Rephrased.sameReading {j j' : Json} (h : Rephrased j j') : SameReading j j' := by
  induction h with
  | refl j => exact .refl j
  | symm _ ih => exact ih.symm
  | trans _ _ ih ih' => exact ih.trans ih'
  | item _ before after ih => exact sameReading_item ih before after
  | member _ name members ih => exact sameReading_member ih name members
  | order h => exact sameReading_of_alike fun name => .of_perm (perm_under h name)
  | @place i tag h members =>
    have hplace : Tag.ofIndex i = tag := by
      rw [Tag.ofIndex, h]
      rfl
    have hname := Tag.toOption_toTag.mpr (Tag.GivenBy.name tag.name)
    have hindex := Tag.toOption_toTag.mpr (Tag.GivenBy.place i)
    rw [Tag.ofName_name] at hname
    rw [hplace] at hindex
    exact sameReading_type (hname.trans hindex.symm) members
  | unrecognised h h' members =>
    have hread := Tag.toOption_toTag.mpr h
    exact sameReading_type (hread.trans (Tag.toOption_toTag.mpr h').symm) members
  | default hfield hwritten habsent => exact sameReading_default hfield hwritten habsent
  | extra htype hmark hown j => exact sameReading_extra htype hmark hown j

end Json

/-- Two texts that differ, in any number of steps, only in their spelling or in what has no meaning
for a pattern tree. The texts in between are documents. -/
inductive Rewritten : String → String → Prop where
  | spelling {text text' : String} (h : Respelled text.toList text'.toList) : Rewritten text text'
  | content {text text' : String} {j j' : Json} (hdoc : Json.ofText text = .ok j)
      (hdoc' : Json.ofText text' = .ok j') (h : Rephrased j j') : Rewritten text text'
  | trans {text text' text'' : String} {j : Json} (h : Rewritten text text')
      (hdoc : Json.ofText text' = .ok j) (h' : Rewritten text' text'') : Rewritten text text''

/-- A document is read like every other way to write it. -/
theorem Rewritten.sameReading {text text' : String} (h : Rewritten text text') {j j' : Json}
    (hdoc : Json.ofText text = .ok j) (hdoc' : Json.ofText text' = .ok j') : SameReading j j' := by
  induction h generalizing j j' with
  | spelling h =>
    rw [Json.ofText_respelled h hdoc hdoc']
    exact .refl j'
  | content hcontent hcontent' h =>
    cases hdoc.symm.trans hcontent
    cases hdoc'.symm.trans hcontent'
    exact h.sameReading
  | trans _ hmiddle _ ih ih' => exact (ih hdoc hmiddle).trans (ih' hmiddle hdoc')

namespace Node

/-- A document holds the same pattern tree as every other way to write it, or neither holds one. -/
theorem ofText_rewritten {text text' : String} (h : Rewritten text text') {j j' : Json}
    (hdoc : Json.ofText text = .ok j) (hdoc' : Json.ofText text' = .ok j') (n : Node) :
    Node.ofText text = .ok n ↔ Node.ofText text' = .ok n := by
  have hread {text : String} {j : Json} (hdoc : Json.ofText text = .ok j) :
      Node.ofText text = .ok n ↔ (ofJson j).toOption = some n := by
    rw [ofText_eq_ofJson hdoc]
    cases ofJson j with
    | error e => exact iff_of_false nofun nofun
    | ok m =>
      constructor
      · intro hm
        cases hm
        rfl
      · intro hm
        cases hm
        rfl
  rw [hread hdoc, hread hdoc', (h.sameReading hdoc hdoc').node]

/-- A leaf whose tag is given by its place, with a member of no use. -/
def numberedDigit : Json := .object [("note", .array []), ("type", .integer 22)]

/-- The same leaf with the name of its tag and with its offset. -/
def namedDigit : Json := .object [("offset", .integer 0), ("type", .string "digit")]

/-- The text of the second with a blank and with an escape. -/
def spacedDigit : String := "\x7b \"offset\":0,\"t\\u0079pe\":\"digit\"\x7d"

/-- The two leaves differ in what has no meaning. -/
theorem rephrased_digit : Rephrased numberedDigit namedDigit := by
  have hnote : Rephrased (.object [("type", .integer 22)]) numberedDigit := by
    refine .extra (by decide) (by simp [Mark.fields]) (fun value tag hvalue hgiven => ?_)
      (.array [])
    rw [List.mem_singleton] at hvalue
    cases hvalue
    have htag : Tag.GivenBy (.integer 22) (.token .digit) := .place 22
    have hsame := (Tag.toOption_toTag.mpr hgiven).symm.trans (Tag.toOption_toTag.mpr htag)
    rw [Option.some.inj hsame]
    intro field hfield
    cases hfield
  have hplace : Rephrased (.object [("type", .string "digit")]) (.object [("type", .integer 22)]) :=
    .place (rfl : Tag.known[22]? = some (.token .digit)) []
  have hfield : (⟨"offset", .offset, some (.integer 0)⟩ : Field) ∈ Mark.fields := List.mem_cons_self
  have hoffset : Rephrased (.object [("type", .string "digit")]) namedDigit :=
    .default (.inl hfield) rfl rfl
  exact hnote.symm.trans (hplace.symm.trans hoffset)

/-- The text of the second leaf may be spelled with a blank and with an escape. -/
theorem respelled_digit : Respelled namedDigit.render.toList spacedDigit.toList := by
  have hself (s : String)
      (h : s.toList.all (fun c => c ≠ '"' ∧ c ≠ '\\' ∧ 0x20 ≤ c.toNat) = true) :
      Text.Spells s.toList s.toList :=
    Text.spells_self fun c hc => of_decide_eq_true (List.all_eq_true.mp h c hc)
  have hunit : Text.hexUnit? '0' '0' '7' '9' = some 0x79 := by decide
  have htype : Text.Spells ['t', '\\', 'u', '0', '0', '7', '9', 'p', 'e'] "type".toList :=
    .plain (by decide) (by decide) (by decide)
      (.unit hunit (by decide) (by decide) (hself "pe" (by decide)))
  have hclose : Respelled ['\x7d'] ['\x7d'] := .mark (by decide) .finish
  have hdigit := Respelled.string (hself "digit" (by decide)) (hself "digit" (by decide)) hclose
  have hsecond := Respelled.string (hself "type" (by decide)) htype
    (.mark (by decide : ':' ∈ marks) hdigit)
  have hends (cs : List Char) : EndsRun (',' :: cs) := by
    intro c hc
    cases hc
    decide
  have hdigits : ∀ c ∈ ['0'], c ∉ separators := by
    rw [List.forall_mem_singleton]
    decide
  have hzero := Respelled.run (List.cons_ne_nil '0' []) hdigits (hends _) (hends _)
    (.mark (by decide : ',' ∈ marks) hsecond)
  have hfirst := Respelled.string (hself "offset" (by decide)) (hself "offset" (by decide))
    (.mark (by decide : ':' ∈ marks) hzero)
  have hopen := Respelled.mark (by decide : '\x7b' ∈ marks)
    (.blankRight (by decide : isBlank ' ' = true) hfirst)
  exact hopen

/-- The text of the first and that of the second, spelled otherwise, hold the same leaf. -/
theorem ofText_rewritten_digit :
    Rewritten numberedDigit.render spacedDigit ∧
      Json.ofText numberedDigit.render = .ok numberedDigit ∧
      (∃ j, Json.ofText spacedDigit = .ok j) ∧
      Node.ofText numberedDigit.render = .ok (.token { } .digit) ∧
      Node.ofText spacedDigit = .ok (.token { } .digit) := by
  have hnumbered : Json.ofText numberedDigit.render = .ok numberedDigit :=
    Json.ofText_render (by simp [numberedDigit, Json.Plain, Json.PlainMembers, Json.PlainItems,
      Json.Leaf]) (by decide)
  have hnamed : Json.ofText namedDigit.render = .ok namedDigit :=
    Json.ofText_render (by simp [namedDigit, Json.Plain, Json.PlainMembers, Json.Leaf]) (by decide)
  have hspaced : ∃ j, Json.ofText spacedDigit = .ok j := by
    have hsome : (Json.ofText spacedDigit).toOption.isSome = true := by decide +kernel
    cases h : Json.ofText spacedDigit with
    | error e =>
      rw [h] at hsome
      cases hsome
    | ok j => exact ⟨j, rfl⟩
  obtain ⟨j, hj⟩ := hspaced
  have hrewritten : Rewritten numberedDigit.render spacedDigit :=
    .trans (.content hnumbered hnamed rephrased_digit) hnamed (.spelling respelled_digit)
  have hread : Node.ofText numberedDigit.render = .ok (.token { } .digit) := by
    rw [ofText_eq_ofJson hnumbered]
    rfl
  exact ⟨hrewritten, hnumbered, ⟨j, hj⟩, hread,
    (ofText_rewritten hrewritten hnumbered hj _).mp hread⟩

end Node

end PatternSampler
