import PatternSampler.Pattern.Decode
import PatternSampler.Pattern.Encode
import PatternSampler.Proofs.JsonValues

/-!
# Pattern trees as JSON and back

`Node.ofJson` undoes `Node.toJson`. The members of a node's object are its heading, which every node
has, and the fields of its kind; a reader of one of them passes over the others, so that each can be
shown to be found where it stands.

The nesting of a tree is that of its value (`nesting_toJson`), and a tree that is read from a value
is nested no deeper than the value (`nesting_ofJson`).
-/

namespace PatternSampler

namespace Node

/-- The members of a node that depend on its kind. -/
def fields : Node → List (String × Json)
  | alternate _ l r => [("left", l.toJson), ("right", r.toJson)]
  | sequence _ b => [("body", .array (toItems b))]
  | group _ _ b => [("body", b.toJson)]
  | quantified _ b q => [("body", b.toJson), ("quantifier", q.toJson)]
  | quantifier _ bounds greedy =>
    [("min", .integer bounds.min.toInt), ("max", upperBound bounds.max), ("greedy", .bool greedy)]
  | charset _ b i => [("body", .array (toItems b)), ("invert", .bool i)]
  | range _ a b => [("start", a.toJson), ("end", b.toJson)]
  | literal _ c e => [("body", .string c.toString), ("escaped", .bool e)]
  | numeric _ _ c => [("code", .string c)]
  | backReference _ c => [("code", .integer c.toNat)]
  | control _ c => [("code", .string c.toString)]
  | token _ _ => []
  | unknown _ => []

/-- A node's object holds its heading and then the fields of its kind. -/
theorem toJson_eq (n : Node) : n.toJson = .object (n.heading ++ n.fields) := by
  cases n <;> rfl

/-- The parts of the heading. -/
def headingNames : List String := ["offset", "text", "type"]

/-- No field of a kind has the name of a part of the heading. -/
theorem not_mem_headingNames {n : Node} {m : String × Json} (hm : m ∈ n.fields) :
    m.1 ∉ headingNames := by
  have hnames : n.fields.all (fun m => decide (m.1 ∉ headingNames)) = true := by
    cases n <;> rfl
  exact of_decide_eq_true (List.all_eq_true.mp hnames m hm)

end Node

namespace MarkForm

/-- Members that are no part of a mark are passed over. -/
theorem fillFrom_pass (form : MarkForm) {members : List (String × Json)}
    (hnames : ∀ m ∈ members, m.1 ≠ "offset" ∧ m.1 ≠ "text") :
    form.fillFrom members = .ok form := by
  induction members with
  | nil => rfl
  | cons m ms ih =>
    obtain ⟨hoffset, htext⟩ := hnames m List.mem_cons_self
    obtain ⟨field, j⟩ := m
    rw [fillFrom, fill, if_neg hoffset, if_neg htext]
    exact ih fun m hm => hnames m (List.mem_cons_of_mem _ hm)

end MarkForm

/-- An offset is read back from its value. -/
theorem toOffset_integer (offset : UInt64) :
    (Json.Head.integer offset.toNat).toOffset = .ok offset := by
  have hlt := offset.toNat_lt
  rw [Json.Head.toOffset, Json.Head.toInteger, if_pos (by omega)]
  show Except.ok (UInt64.ofNat (offset.toNat : Int).toNat) = _
  rw [Int.toNat_natCast, UInt64.ofNat_toNat]

/-- A bound is read back from its value. -/
theorem toBound_integer (bound : Int64) : (Json.Head.integer bound.toInt).toBound = .ok bound := by
  have hleast := bound.le_toInt
  have hmost := bound.toInt_lt
  rw [Json.Head.toBound, Json.Head.toInteger, if_pos (by omega)]
  show Except.ok (Int64.ofInt bound.toInt) = _
  rw [Int64.ofInt_toInt]

/-- An upper bound is read back from its value. -/
theorem toUpperBound_upperBound (bound : Option Int64) :
    (Node.upperBound bound).head.toUpperBound = .ok bound := by
  cases bound with
  | none => rfl
  | some bound =>
    show (Json.Head.integer bound.toInt).toBound.map some = _
    rw [toBound_integer]
    rfl

/-- The number of a group is read back from its value. -/
theorem toGroupNumber_integer (code : UInt32) :
    (Json.Head.integer code.toNat).toGroupNumber = .ok code := by
  have hlt := code.toNat_lt
  rw [Json.Head.toGroupNumber, Json.Head.toInteger, if_pos (by omega)]
  show Except.ok (UInt32.ofNat (code.toNat : Int).toNat) = _
  rw [Int.toNat_natCast, UInt32.ofNat_toNat]

/-- A character is read back from its text. -/
theorem toCharacter_string (c : Char) : (Json.Head.string c.toString).toCharacter = .ok c := by
  have hlist : c.toString.toList = [c] := String.toList_singleton c
  rw [Json.Head.toCharacter, hlist]

namespace Node

/-- What comes behind the offset and the text of a node, up to the end of its object. -/
def tail (n : Node) : List (String × Json) := ("type", .string n.typeName) :: n.fields

/-- The offset and the text come first. -/
theorem heading_append_fields (n : Node) :
    n.heading ++ n.fields =
      ("offset", .integer n.offset.toNat) :: ("text", .string n.text) :: n.tail := rfl

/-- Neither the offset nor the text comes again. -/
theorem ne_of_mem_tail {n : Node} {m : String × Json} (hm : m ∈ n.tail) :
    m.1 ≠ "offset" ∧ m.1 ≠ "text" := by
  rcases List.mem_cons.mp hm with rfl | hm
  · exact ⟨show "type" ≠ "offset" by decide, show "type" ≠ "text" by decide⟩
  · have hname := not_mem_headingNames hm
    simp only [headingNames, List.mem_cons, not_or] at hname
    exact ⟨hname.1, hname.2.1⟩

/-- The mark is found among the members of a node. -/
theorem markOfMembers_toJson (n : Node) :
    Mark.ofMembers (n.heading ++ n.fields) = .ok n.mark := by
  have hpass (form : MarkForm) : form.fillFrom n.tail = .ok form :=
    form.fillFrom_pass fun m hm => ne_of_mem_tail hm
  have hoffset : Json.Head.toOffset (Json.integer n.offset.toNat).head = .ok n.offset :=
    toOffset_integer n.offset
  have hform : MarkForm.fillFrom { } (n.heading ++ n.fields) =
      .ok { offset := some n.offset, text := some n.text } := by
    rw [heading_append_fields, MarkForm.fillFrom, MarkForm.fill, if_pos rfl, hoffset]
    exact hpass _
  rw [Mark.ofMembers, hform]
  rfl

/-- The tag is found among the members behind the offset and the text. -/
theorem tagOfMembers_tail (n : Node) : Tag.ofMembers n.tail = .ok n.tag := by
  have hpass (found : Option Tag) (members : List (String × Json))
      (hnames : ∀ m ∈ members, m.1 ≠ "type") : Tag.search found members = .ok found := by
    induction members with
    | nil => rfl
    | cons m ms ih =>
      have hname := hnames m List.mem_cons_self
      obtain ⟨field, j⟩ := m
      rw [Tag.search, if_neg hname]
      exact ih fun m hm => hnames m (List.mem_cons_of_mem _ hm)
  have htype : ∀ m ∈ n.fields, m.1 ≠ "type" := by
    intro m hm heq
    exact not_mem_headingNames hm (heq ▸ by decide)
  have htag : Json.Head.toTag (Json.string n.typeName).head = .ok n.tag :=
    congrArg Except.ok (Tag.ofName_name n.tag)
  -- The tag comes first, and no field is taken for a second one.
  have hsearch : Tag.search none n.tail = .ok (some n.tag) := by
    rw [tail, Tag.search, if_pos rfl, htag]
    exact hpass _ _ htype
  rw [Tag.ofMembers, hsearch]
  rfl

/-- A form has no place for the heading. -/
theorem fill_heading (form : Form) {field : String} (hfield : field ∈ headingNames)
    (scalar : Json.Head) (node : Unit → Except ShapeError Node)
    (nodes : Unit → Except ShapeError (List Node)) :
    form.fill field scalar node nodes = .ok form := by
  simp only [headingNames, List.mem_cons, List.not_mem_nil, or_false] at hfield
  -- Each of the three names differs from the names of all fields of every form.
  rcases hfield with rfl | rfl | rfl <;> cases form <;> rfl

/-- A part of the heading changes nothing about a form that is filled. -/
theorem fillFrom_heading (form : Form) {field : String} (hfield : field ∈ headingNames) (j : Json)
    (members : List (String × Json)) :
    fillFrom form ((field, j) :: members) = fillFrom form members := by
  rw [fillFrom, fill_heading form hfield]
  rfl

/-- A node is found behind its mark if its fields fill the form of its kind. -/
theorem ofMembers_tail {n : Node} (hfields : (do
      let form ← fillFrom (.blank n.tag) n.fields
      form.complete n.mark) = .ok n) : ofMembers n.mark n.tail = .ok n := by
  rw [ofMembers, tagOfMembers_tail]
  show (fillFrom (.blank n.tag) n.tail >>= fun form => form.complete n.mark) = _
  rw [tail, fillFrom_heading _ (by decide)]
  exact hfields

/-- A node is read back from its value if its fields fill the form of its kind. -/
theorem ofJson_toJson_of_fields {n : Node} (hfields : (do
      let form ← fillFrom (.blank n.tag) n.fields
      form.complete n.mark) = .ok n) : ofJson n.toJson = .ok n := by
  have htag : Tag.ofMembers (n.heading ++ n.fields) = Tag.ofMembers n.tail := rfl
  have hfill (form : Form) : fillFrom form (n.heading ++ n.fields) = fillFrom form n.tail := by
    rw [heading_append_fields, fillFrom_heading form (by decide), fillFrom_heading form (by decide)]
  rw [toJson_eq, ofJson_object, markOfMembers_toJson]
  show ofMembers n.mark (n.heading ++ n.fields) = _
  -- The offset and the text stand before the rest, where neither tag nor form takes them.
  rw [← ofMembers_tail hfields, ofMembers, ofMembers, htag]
  simp only [hfill]

mutual

/-- The fields of a node fill the form of its kind. -/
theorem fillFrom_fields (n : Node) : (do
    let form ← fillFrom (.blank n.tag) n.fields
    form.complete n.mark) = .ok n := by
  match n with
  | .alternate mark a b | .quantified mark a b | .range mark a b =>
    have ha := ofJson_toJson_of_fields (fillFrom_fields a)
    have hb := ofJson_toJson_of_fields (fillFrom_fields b)
    simp only [fields, fillFrom, tag, Form.blank, Form.fill, ha, hb]
    rfl
  | .group mark style b =>
    have hb := ofJson_toJson_of_fields (fillFrom_fields b)
    simp only [fields, fillFrom, tag, Form.blank, Form.fill, hb]
    rfl
  | .sequence mark b | .charset mark b _ =>
    have hb := ofItems_toItems b
    simp only [fields, fillFrom, tag, Form.blank, Form.fill, listOfJson, hb]
    rfl
  | .quantifier mark bounds greedy =>
    have hmin : (Json.integer bounds.min.toInt).head.toBound = .ok bounds.min :=
      toBound_integer bounds.min
    have hmax := toUpperBound_upperBound bounds.max
    simp only [fields, fillFrom, tag, Form.blank, Form.fill, hmin, hmax]
    rfl
  | .literal mark c e =>
    have hc : (Json.string c.toString).head.toCharacter = .ok c := toCharacter_string c
    simp only [fields, fillFrom, tag, Form.blank, Form.fill, hc]
    rfl
  | .numeric mark form code => rfl
  | .backReference mark code =>
    have hcode : (Json.integer code.toNat).head.toGroupNumber = .ok code :=
      toGroupNumber_integer code
    simp only [fields, fillFrom, tag, Form.blank, Form.fill, hcode]
    rfl
  | .control mark code =>
    have hcode : (Json.string code.toString).head.toCharacter = .ok code := toCharacter_string code
    simp only [fields, fillFrom, tag, Form.blank, Form.fill, hcode]
    rfl
  | .token mark kind => rfl
  | .unknown mark => rfl

/-- Nodes are read back from their values. -/
theorem ofItems_toItems (ns : List Node) : ofItems (toItems ns) = .ok ns := by
  match ns with
  | [] => rfl
  | n :: ns =>
    have hn := ofJson_toJson_of_fields (fillFrom_fields n)
    have hns := ofItems_toItems ns
    rw [toItems, ofItems, hn]
    show (ofItems (toItems ns) >>= fun ns => Except.ok (n :: ns)) = _
    rw [hns]
    rfl

end

/-- A node is read back from its value. -/
theorem ofJson_toJson (n : Node) : ofJson n.toJson = .ok n :=
  ofJson_toJson_of_fields (fillFrom_fields n)

mutual

/-- How many brackets are open at once in the value of a node: one for the node, one more for a list
of nodes in it, and those of its most nested child. -/
def nesting : Node → Nat
  | alternate _ l r => max l.nesting r.nesting + 1
  | sequence _ b => nestingAll b + 1 + 1
  | group _ _ b => b.nesting + 1
  | quantified _ b q => max b.nesting q.nesting + 1
  | charset _ b _ => nestingAll b + 1 + 1
  | range _ a b => max a.nesting b.nesting + 1
  | _ => 1

/-- The largest nesting of some nodes. -/
def nestingAll : List Node → Nat
  | [] => 0
  | n :: ns => max n.nesting (nestingAll ns)

end

/-- The heading of a node opens no brackets. -/
theorem nestingMembers_heading (n : Node) (members : List (String × Json)) :
    Json.nestingMembers (n.heading ++ members) = Json.nestingMembers members := by
  simp only [heading, List.cons_append, List.nil_append, Json.nestingMembers, Json.nesting]
  omega

mutual

/-- A node is nested like its value. -/
theorem nesting_toJson (n : Node) : n.toJson.nesting = n.nesting := by
  rw [toJson_eq, Json.nesting, nestingMembers_heading]
  match n with
  | .alternate _ a b | .quantified _ a b | .range _ a b =>
    have ha := nesting_toJson a
    have hb := nesting_toJson b
    simp only [fields, Json.nestingMembers, nesting, ha, hb]
    omega
  | .group _ _ b =>
    have hb := nesting_toJson b
    simp only [fields, Json.nestingMembers, nesting, hb]
    omega
  | .sequence _ b | .charset _ b _ =>
    -- The list opens a bracket of its own, even where it is empty.
    have hb := nestingItems_toItems b
    simp only [fields, Json.nestingMembers, Json.nesting, nesting, hb]
    omega
  | .quantifier _ bounds _ =>
    -- An upper bound that is not there is written as null, which opens no bracket either.
    have hmax : (upperBound bounds.max).nesting = 0 := by cases bounds.max <;> rfl
    simp only [fields, Json.nestingMembers, Json.nesting, nesting, hmax]
    omega
  | .literal .. | .numeric .. | .backReference .. | .control .. | .token .. | .unknown .. => rfl

/-- Nodes are nested like their values. -/
theorem nestingItems_toItems (ns : List Node) : Json.nestingItems (toItems ns) = nestingAll ns := by
  match ns with
  | [] => rfl
  | n :: ns =>
    have hn := nesting_toJson n
    have hns := nestingItems_toItems ns
    rw [toItems, Json.nestingItems, nestingAll, hn, hns]

end

/-- The heading of a node can be read back. -/
theorem plainMembers_heading (n : Node) {members : List (String × Json)}
    (hmembers : Json.PlainMembers members) : Json.PlainMembers (n.heading ++ members) := by
  have hoffset := n.offset.toNat_lt
  have hleaf : (Json.integer n.offset.toNat).Leaf := by
    constructor <;> omega
  exact ⟨hleaf, trivial, trivial, hmembers⟩

mutual

/-- The value of a node can be read back. -/
theorem plain_toJson (n : Node) : n.toJson.Plain := by
  rw [toJson_eq, Json.Plain]
  refine plainMembers_heading n ?_
  match n with
  | .alternate _ l r => exact ⟨plain_toJson l, plain_toJson r, trivial⟩
  | .sequence _ b => exact ⟨plainItems_toItems b, trivial⟩
  | .group _ _ b => exact ⟨plain_toJson b, trivial⟩
  | .quantified _ b q => exact ⟨plain_toJson b, plain_toJson q, trivial⟩
  | .charset _ b _ => exact ⟨plainItems_toItems b, trivial, trivial⟩
  | .range _ a b => exact ⟨plain_toJson a, plain_toJson b, trivial⟩
  | .quantifier _ bounds _ =>
    have hbound (bound : Int64) : (Json.integer bound.toInt).Leaf := by
      have hleast := bound.le_toInt
      have hmost := bound.toInt_lt
      constructor <;> omega
    refine ⟨hbound bounds.min, ?_, trivial, trivial⟩
    cases bounds.max with
    | none => trivial
    | some bound => exact hbound bound
  | .backReference _ code =>
    have hcode := code.toNat_lt
    have hleaf : (Json.integer code.toNat).Leaf := by
      constructor <;> omega
    exact ⟨hleaf, trivial⟩
  | .literal .. => exact ⟨trivial, trivial, trivial⟩
  | .numeric .. => exact ⟨trivial, trivial⟩
  | .control .. => exact ⟨trivial, trivial⟩
  | .token .. => trivial
  | .unknown .. => trivial

/-- The values of nodes can be read back. -/
theorem plainItems_toItems (ns : List Node) : Json.PlainItems (toItems ns) := by
  match ns with
  | [] => trivial
  | n :: ns => exact ⟨plain_toJson n, plainItems_toItems ns⟩

end

end Node

namespace Form

/-- The nodes in a form, and the lists of nodes in it, are nested no deeper than a limit. -/
def Within (depth : Nat) : Form → Prop
  | alternate l r => (∀ n ∈ l, n.nesting ≤ depth) ∧ ∀ n ∈ r, n.nesting ≤ depth
  | sequence b => ∀ ns ∈ b, Node.nestingAll ns + 1 ≤ depth
  | group _ b => ∀ n ∈ b, n.nesting ≤ depth
  | quantified b q => (∀ n ∈ b, n.nesting ≤ depth) ∧ ∀ n ∈ q, n.nesting ≤ depth
  | charset b _ => ∀ ns ∈ b, Node.nestingAll ns + 1 ≤ depth
  | range a b => (∀ n ∈ a, n.nesting ≤ depth) ∧ ∀ n ∈ b, n.nesting ≤ depth
  | _ => True

/-- A blank form holds nothing. -/
theorem within_blank (depth : Nat) (tag : Tag) : (blank tag).Within depth := by
  cases tag <;> simp [blank, Within]

variable {depth : Nat}

/-- What holds of a value holds of everything in a place that it fills. -/
theorem forall_mem_some {α : Type} {P : α → Prop} {a : α} (ha : P a) : ∀ a' ∈ some a, P a' := by
  intro a' ha'
  cases ha'
  exact ha

/-- A form is within a limit after a place of it has been filled, if it is with whatever has been
read for the place. -/
theorem within_put {α : Type} {field : String} {place : Option α} {read : Except ShapeError α}
    {enter : Option α → Form} {form' : Form} (h : (put field place read).map enter = .ok form')
    (hread : ∀ a, read = .ok a → (enter (some a)).Within depth) : form'.Within depth := by
  obtain ⟨place', hput, rfl⟩ := map_eq_ok h
  cases place with
  | some _ => cases hput
  | none =>
    obtain ⟨a, ha, rfl⟩ := map_eq_ok hput
    exact hread a ha

/-- A form stays within a limit when a member is entered that is. -/
theorem within_fill {form form' : Form} {field : String} {scalar : Json.Head}
    {node : Unit → Except ShapeError Node} {nodes : Unit → Except ShapeError (List Node)}
    (hform : form.Within depth) (hnode : ∀ n, node () = .ok n → n.nesting ≤ depth)
    (hnodes : ∀ ns, nodes () = .ok ns → Node.nestingAll ns + 1 ≤ depth)
    (h : form.fill field scalar node nodes = .ok form') : form'.Within depth := by
  -- A member of no use leaves the form as it is.
  have hsame {form : Form} (hform : form.Within depth)
      (h : (.ok form : Except ShapeError Form) = .ok form') : form'.Within depth :=
    Except.ok.inj h ▸ hform
  cases form with
  | alternate a b | quantified a b | range a b =>
    simp only [fill] at h
    split at h
    · exact within_put h fun n hn => ⟨forall_mem_some (hnode n hn), hform.2⟩
    split at h
    · exact within_put h fun n hn => ⟨hform.1, forall_mem_some (hnode n hn)⟩
    · exact hsame hform h
  | sequence b =>
    simp only [fill] at h
    split at h
    · exact within_put h fun ns hns => forall_mem_some (hnodes ns hns)
    · exact hsame hform h
  | group style b =>
    simp only [fill] at h
    split at h
    · exact within_put h fun n hn => forall_mem_some (hnode n hn)
    · exact hsame hform h
  | charset b i =>
    simp only [fill] at h
    split at h
    · exact within_put h fun ns hns => forall_mem_some (hnodes ns hns)
    split at h
    · exact within_put h fun _ _ => hform
    · exact hsame hform h
  | quantifier =>
    simp only [fill] at h
    split at h
    · exact within_put h fun _ _ => trivial
    split at h
    · exact within_put h fun _ _ => trivial
    split at h
    · exact within_put h fun _ _ => trivial
    · exact hsame hform h
  | literal =>
    simp only [fill] at h
    split at h
    · exact within_put h fun _ _ => trivial
    split at h
    · exact within_put h fun _ _ => trivial
    · exact hsame hform h
  | numeric | backReference | control =>
    simp only [fill] at h
    split at h
    · exact within_put h fun _ _ => trivial
    · exact hsame hform h
  | token | unknown => exact hsame hform h

/-- What is found in a place is what it held. -/
theorem mem_of_need_eq_ok {α : Type} {field : String} {place : Option α} {a : α}
    (h : need field place = .ok a) : a ∈ place := by
  cases place with
  | none => cases h
  | some b =>
    cases h
    rfl

/-- The node of a form opens one bracket more than the form is limited to. -/
theorem nesting_complete {form : Form} {mark : Mark} {n : Node} (hform : form.Within depth)
    (h : form.complete mark = .ok n) : n.nesting ≤ depth + 1 := by
  cases form with
  | alternate a b | quantified a b | range a b =>
    obtain ⟨na, ha, h⟩ := bind_eq_ok h
    obtain ⟨nb, hb, h⟩ := bind_eq_ok h
    cases h
    have hna := hform.1 na (mem_of_need_eq_ok ha)
    have hnb := hform.2 nb (mem_of_need_eq_ok hb)
    exact Nat.succ_le_succ (Nat.max_le.mpr ⟨hna, hnb⟩)
  | sequence b | group _ b | charset b _ =>
    obtain ⟨part, hpart, h⟩ := bind_eq_ok h
    cases h
    exact Nat.succ_le_succ (hform part (mem_of_need_eq_ok hpart))
  | quantifier | literal | numeric | backReference | control =>
    obtain ⟨part, -, h⟩ := bind_eq_ok h
    cases h
    exact Nat.succ_le_succ (Nat.zero_le depth)
  | token | unknown =>
    cases h
    exact Nat.succ_le_succ (Nat.zero_le depth)

end Form

namespace Node

/-- A node is nested one bracket deeper than the members that it is read from, at most. -/
theorem nesting_ofMembers {mark : Mark} {members : List (String × Json)} {depth : Nat} {n : Node}
    (hfill : ∀ form form', form.Within depth → fillFrom form members = .ok form' →
      form'.Within depth) (h : ofMembers mark members = .ok n) : n.nesting ≤ depth + 1 := by
  obtain ⟨tag, -, h⟩ := bind_eq_ok h
  obtain ⟨form, hform, h⟩ := bind_eq_ok h
  exact Form.nesting_complete (hfill _ _ (Form.within_blank depth tag) hform) h

mutual

/-- A node that is read from a value is nested no deeper than the value. -/
theorem nesting_ofJson {j : Json} {n : Node} (h : ofJson j = .ok n) : n.nesting ≤ j.nesting := by
  match j with
  | .object members =>
    rw [ofJson_object] at h
    obtain ⟨mark, -, h⟩ := bind_eq_ok h
    exact nesting_ofMembers
      (fun form form' hform h => within_fillFrom (Nat.le_refl _) hform h) h
  | .null | .bool _ | .integer _ | .float _ | .string _ | .array _ => cases h

/-- Nodes that are read from an array are nested less deep than the array. -/
theorem nesting_listOfJson {j : Json} {ns : List Node} (h : listOfJson j = .ok ns) :
    nestingAll ns + 1 ≤ j.nesting := by
  match j with
  | .array items => exact Nat.succ_le_succ (nesting_ofItems h)
  | .null | .bool _ | .integer _ | .float _ | .string _ | .object _ => cases h

/-- Nodes that are read from some values are nested no deeper than the values. -/
theorem nesting_ofItems {js : List Json} {ns : List Node} (h : ofItems js = .ok ns) :
    nestingAll ns ≤ Json.nestingItems js := by
  match js with
  | [] =>
    cases h
    exact Nat.le_refl 0
  | j :: js =>
    obtain ⟨n, hn, h⟩ := bind_eq_ok h
    obtain ⟨ns, hns, h⟩ := bind_eq_ok h
    cases h
    have hle := nesting_ofJson hn
    have hle' := nesting_ofItems hns
    rw [nestingAll, Json.nestingItems]
    omega

/-- A form stays within a limit when members are entered that are. -/
theorem within_fillFrom {form form' : Form} {members : List (String × Json)} {depth : Nat}
    (hmembers : Json.nestingMembers members ≤ depth) (hform : form.Within depth)
    (h : fillFrom form members = .ok form') : form'.Within depth := by
  match members with
  | [] =>
    cases h
    exact hform
  | (field, j) :: members =>
    obtain ⟨form₁, hfill, h⟩ := bind_eq_ok h
    rw [Json.nestingMembers] at hmembers
    have hnode (n : Node) (hn : ofJson j = .ok n) : n.nesting ≤ depth := by
      have hle := nesting_ofJson hn
      omega
    have hnodes (ns : List Node) (hns : listOfJson j = .ok ns) : nestingAll ns + 1 ≤ depth := by
      have hle := nesting_listOfJson hns
      omega
    have hform₁ := Form.within_fill hform hnode hnodes hfill
    exact within_fillFrom (by omega) hform₁ h

end

end Node

end PatternSampler
