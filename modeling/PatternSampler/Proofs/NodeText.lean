import PatternSampler.Pattern.Document
import PatternSampler.Proofs.JsonDepth
import PatternSampler.Proofs.NodeJson

/-!
# Pattern trees as text and back

The text of a pattern tree is read back as the tree, as long as the tree is nested no deeper than a
document may be, and is rejected as too nested if it is (`ofText_toText`). The root is read by a
loop of its own, which takes the offset and the text of the tree as they come. `Draft.enter` says
what the loop does with a member whose value is known, so that it can be compared with the decoder
of values.

A tree that has been read from a text has been read within the limit, whatever the text looked like,
so writing it and reading it again always gives it back.
-/

namespace PatternSampler

namespace Draft

/-- The draft with a member entered, given by its name and its value. -/
def enter (draft : Draft) (m : String × Json) : Except DocumentError Draft :=
  if draft.holds m.1 then .error (.wrongShape (.duplicate m.1))
  else if m.1 = "offset" ∨ m.1 = "text" then
    ((draft.mark.fill m.1 m.2.head).mapError .wrongShape).map ({ draft with mark := · })
  else
    ((m.2.within (Json.maxNesting - 1)).mapError .malformed).map fun j =>
      { draft with kept := (m.1, j) :: draft.kept }

/-- A written member is entered with its value. -/
theorem member_write {fuel : Nat} {m : String × Json} (hplain : m.2.Plain)
    (hfuel : m.2.write.length < fuel) (hleaf : m.1 = "offset" ∨ m.1 = "text" → m.2.Leaf)
    (draft : Draft) {rest : List Char} (hstops : Json.Stops rest) :
    member fuel draft m.1 (':' :: m.2.write ++ rest) = (draft.enter m).map (·, rest) := by
  rw [member, enter]
  split
  · rfl
  split
  · next hname =>
    have hhead := Json.headOf_leaf (hleaf hname) hstops
    rw [List.cons_append, Json.colon_cons]
    show ((Json.headOf (m.2.write ++ rest)).mapError DocumentError.malformed >>= fun r =>
      (draft.mark.fill m.1 r.1).mapError DocumentError.wrongShape >>= fun mark =>
        Except.ok ({ draft with mark }, r.2)) = _
    rw [hhead]
    show ((draft.mark.fill m.1 m.2.head).mapError DocumentError.wrongShape >>= fun mark =>
      Except.ok ({ draft with mark }, rest)) = _
    cases draft.mark.fill m.1 m.2.head <;> rfl
  · have hvalue := Json.value_write fuel m.2 hplain hfuel (Json.maxNesting - 1) hstops
    rw [List.cons_append, Json.colon_cons]
    show ((Json.value fuel (Json.maxNesting - 1) (m.2.write ++ rest)).mapError
      DocumentError.malformed >>= fun r =>
        Except.ok ({ draft with kept := (m.1, r.1) :: draft.kept }, r.2)) = _
    rw [hvalue]
    cases m.2.within (Json.maxNesting - 1) <;> rfl

/-- A member that is no part of a mark is kept if it is within the limit. -/
theorem enter_other (draft : Draft) {m : String × Json} (hname : m.1 ≠ "offset" ∧ m.1 ≠ "text") :
    draft.enter m =
      if m.2.nesting ≤ Json.maxNesting - 1 then .ok { draft with kept := m :: draft.kept }
      else .error (.malformed .tooNested) := by
  obtain ⟨hoffset, htext⟩ := hname
  have hfree : draft.holds m.1 = false := by
    rw [holds, decide_eq_false hoffset, decide_eq_false htext]
    rfl
  rw [enter, hfree, if_neg Bool.false_ne_true, if_neg (not_or.mpr ⟨hoffset, htext⟩), Json.within]
  split <;> rfl

/-- Members that are kept one by one are kept the last one first. -/
theorem foldl_keep (draft : Draft) (members : List (String × Json)) :
    members.foldl (fun draft m => { draft with kept := m :: draft.kept }) draft =
      { draft with kept := members.reverse ++ draft.kept } := by
  induction members generalizing draft with
  | nil => rfl
  | cons m ms ih =>
    rw [List.foldl_cons, ih, List.reverse_cons, List.append_assoc]
    rfl

/-- Members that are no part of a mark are kept if they are within the limit. -/
theorem foldlM_enter (draft : Draft) {members : List (String × Json)}
    (hnames : ∀ m ∈ members, m.1 ≠ "offset" ∧ m.1 ≠ "text") :
    members.foldlM enter draft =
      if Json.nestingMembers members ≤ Json.maxNesting - 1 then
        .ok { draft with kept := members.reverse ++ draft.kept }
      else .error (.malformed .tooNested) := by
  rw [Json.foldlM_within fun m hm draft => draft.enter_other (hnames m hm), foldl_keep]

end Draft

namespace Node

/-- The members of a node, entered one after the other, make up a draft of the node, if what lies in
them is not too nested. -/
theorem foldlM_enter_toJson (n : Node) :
    (n.heading ++ n.fields).foldlM Draft.enter { } =
      if n.nesting ≤ Json.maxNesting then
        .ok { mark := { offset := some n.offset, text := some n.text }, kept := n.tail.reverse }
      else .error (.malformed .tooNested) := by
  have hoffset : Draft.enter { } ("offset", .integer n.offset.toNat) =
      .ok { mark := { offset := some n.offset } } := by
    have hread : Json.Head.toOffset (Json.integer n.offset.toNat).head = .ok n.offset :=
      toOffset_integer n.offset
    have hfree : ({ } : Draft).holds "offset" = false := rfl
    rw [Draft.enter, hfree, if_neg Bool.false_ne_true, if_pos (.inl rfl), MarkForm.fill, if_pos rfl,
      hread]
    rfl
  have htext : Draft.enter { mark := { offset := some n.offset } } ("text", .string n.text) =
      .ok { mark := { offset := some n.offset, text := some n.text } } := rfl
  have hnesting : n.nesting = Json.nestingMembers n.tail + 1 := by
    have hname : (Json.string n.typeName).nesting = 0 := rfl
    rw [← nesting_toJson, toJson_eq, Json.nesting, nestingMembers_heading, tail,
      Json.nestingMembers, hname, Nat.zero_max]
  rw [heading_append_fields, List.foldlM_cons, hoffset]
  show (Draft.enter { mark := { offset := some n.offset } } ("text", .string n.text) >>=
    fun draft => n.tail.foldlM Draft.enter draft) = _
  rw [htext]
  show n.tail.foldlM Draft.enter { mark := { offset := some n.offset, text := some n.text } } = _
  -- The bracket of the node itself makes up for the one that its members may not open.
  have hlimit : Json.nestingMembers n.tail ≤ Json.maxNesting - 1 ↔
      Json.nestingMembers n.tail + 1 ≤ Json.maxNesting := by
    rw [Json.maxNesting]
    omega
  rw [Draft.foldlM_enter _ fun m hm => ne_of_mem_tail hm, hnesting, List.append_nil]
  simp only [hlimit]

/-- Each member of a node is read as it was written. -/
theorem member_toJson {fuel : Nat} {n : Node} (hfuel : n.toJson.write.length < fuel) :
    ∀ m ∈ n.heading ++ n.fields, ∀ (draft : Draft) (rest : List Char), Json.Stops rest →
      draft.member fuel m.1 (':' :: m.2.write ++ rest) = (draft.enter m).map (·, rest) := by
  intro m hm draft rest hstops
  have hplain : m.2.Plain := by
    have hall := n.plain_toJson
    rw [toJson_eq, Json.Plain] at hall
    exact Json.plain_of_mem hall hm
  have hlength : m.2.write.length < fuel := by
    have hle := Json.length_write_le_members hm
    rw [toJson_eq, Json.write, List.length_append, List.length_cons] at hfuel
    omega
  refine Draft.member_write hplain hlength (fun hname => ?_) draft hstops
  rw [heading_append_fields] at hm
  rcases List.mem_cons.mp hm with rfl | hm
  · have hoffset := n.offset.toNat_lt
    exact ⟨by omega, by omega⟩
  rcases List.mem_cons.mp hm with rfl | hm
  · trivial
  · obtain ⟨hoffset, htext⟩ := ne_of_mem_tail hm
    exact absurd hname (not_or.mpr ⟨hoffset, htext⟩)

/-- The written form of a node is read back as the node, if it is not too nested. -/
theorem read_toJson {fuel : Nat} {n : Node} (hfuel : n.toJson.write.length < fuel) :
    Node.read fuel n.toJson.write =
      if n.nesting ≤ Json.maxNesting then .ok (n, []) else .error (.malformed .tooNested) := by
  have hwrite : n.toJson.write =
      '\x7b' :: (Json.writeMembers (n.heading ++ n.fields) ++ ['\x7d']) := by
    rw [toJson_eq, Json.write, List.cons_append]
  have hlength : (n.heading ++ n.fields).length < fuel := by
    have hle := Json.length_le_writeMembers (n.heading ++ n.fields)
    rw [hwrite, List.length_cons, List.length_append] at hfuel
    omega
  have hmembers :=
    Json.membersFrom_write DocumentError.malformed hlength (member_toJson hfuel) { } []
  rw [hwrite]
  show (Json.membersFrom .malformed (Draft.member fuel) fuel true { }
    (Json.writeMembers (n.heading ++ n.fields) ++ ['\x7d']) >>= fun r =>
      r.1.complete.mapError DocumentError.wrongShape >>= fun node =>
        Except.ok (node, r.2)) = _
  rw [hmembers, foldlM_enter_toJson]
  split
  · -- The members have been kept in turn, the last one first.
    have hcomplete : Draft.complete ⟨⟨some n.offset, some n.text⟩, n.tail.reverse⟩ = .ok n := by
      rw [Draft.complete, List.reverse_reverse]
      exact ofMembers_tail (fillFrom_fields n)
    show ((Draft.complete _).mapError DocumentError.wrongShape >>= fun node =>
      Except.ok (node, [])) = _
    rw [hcomplete]
    rfl
  · rfl

/-- The text of a node is read back as the node, if it is not too nested. -/
theorem ofText_toText_eq (n : Node) :
    Node.ofText n.toText =
      if n.nesting ≤ Json.maxNesting then .ok n else .error (.malformed .tooNested) := by
  have hlist : n.toText.toList = n.toJson.write := String.toList_ofList
  have hread := read_toJson (Nat.lt_succ_self n.toJson.write.length)
  rw [ofText, hlist]
  show (Node.read (n.toJson.write.length + 1) n.toJson.write >>= fun r =>
    (Json.ending r.2).mapError DocumentError.malformed >>= fun _ => Except.ok r.1) = _
  rw [hread]
  split
  · rfl
  · rfl

/-- A member leaves room for one more bracket around what has been kept. -/
theorem nesting_member {fuel : Nat} {draft draft' : Draft} {field : String} {cs rest : List Char}
    (hkept : Json.nestingMembers draft.kept < Json.maxNesting)
    (h : draft.member fuel field cs = .ok (draft', rest)) :
    Json.nestingMembers draft'.kept < Json.maxNesting := by
  unfold Draft.member at h
  split at h
  · cases h
  split at h
  · obtain ⟨cs, -, h⟩ := bind_eq_ok h
    obtain ⟨⟨scalar, cs⟩, -, h⟩ := bind_eq_ok h
    obtain ⟨mark, -, h⟩ := bind_eq_ok h
    cases h
    exact hkept
  · obtain ⟨cs, -, h⟩ := bind_eq_ok h
    obtain ⟨⟨j, cs⟩, hj, h⟩ := bind_eq_ok h
    cases h
    have hle : j.nesting ≤ Json.maxNesting - 1 := Json.nesting_value (mapError_eq_ok hj)
    have hlt : j.nesting < Json.maxNesting := Nat.lt_of_le_sub_one (by decide) hle
    exact Nat.max_lt.mpr ⟨hlt, hkept⟩

/-- A node that is read from a text is not too nested. -/
theorem nesting_ofText {text : String} {n : Node} (h : Node.ofText text = .ok n) :
    n.nesting ≤ Json.maxNesting := by
  obtain ⟨⟨n, rest⟩, hread, h⟩ := bind_eq_ok h
  obtain ⟨-, -, h⟩ := bind_eq_ok h
  cases h
  obtain ⟨⟨head, cs⟩, -, hread⟩ := bind_eq_ok hread
  cases head with
  | object =>
    obtain ⟨⟨draft, cs⟩, hdraft, hread⟩ := bind_eq_ok hread
    obtain ⟨n, hn, hread⟩ := bind_eq_ok hread
    cases hread
    have hkept : Json.nestingMembers draft.kept < Json.maxNesting :=
      Json.membersFrom_keeps (P := fun draft => Json.nestingMembers draft.kept < Json.maxNesting)
        (fun _ _ _ _ _ hs hstep => nesting_member hs hstep) (by decide) hdraft
    have hmembers : Json.nestingMembers draft.kept.reverse ≤ Json.maxNesting - 1 := by
      rw [Json.nestingMembers_reverse]
      exact Nat.le_sub_one_of_lt hkept
    exact nesting_ofMembers (fun form form' hform h => within_fillFrom hmembers hform h)
      (mapError_eq_ok hn)
  | _ => cases hread

/-- The round trip of pattern trees through text, with its exact limit. The text of a node is read
back as the node if it is nested no deeper than 127, and is else rejected with the message that
reports it. A node that any text is read as is read again from its own text. -/
theorem ofText_toText :
    (∀ n : Node,
      Node.ofText n.toText =
        if n.nesting ≤ 127 then .ok n else .error (.malformed .tooNested)) ∧
      (DocumentError.malformed .tooNested).message = "recursion limit exceeded" ∧
      ∀ (text : String) (n : Node), Node.ofText text = .ok n → Node.ofText n.toText = .ok n := by
  refine ⟨ofText_toText_eq, rfl, fun text n h => ?_⟩
  rw [ofText_toText_eq, if_pos (nesting_ofText h)]

/-- A text with the number of a tag, a name of none, a member of no use and no offset or flag. -/
def looseText : String :=
  "\x7b\"type\":8,\"note\":[],\"body\":[\x7b\"text\":\"a\",\"type\":\"comment\"\x7d]\x7d"

/-- What is read from a text with all this is a node that is read again from its own text. -/
theorem ofText_toText_looseText :
    let n := Node.charset { } [.unknown { text := "a" }] false
    Node.ofText looseText = .ok n ∧ Node.ofText n.toText = .ok n := by
  intro n
  have hsome : (Node.ofText looseText).toOption = some n := by decide +kernel
  have hread : Node.ofText looseText = .ok n := by
    cases h : Node.ofText looseText with
    | error e =>
      rw [h] at hsome
      cases hsome
    | ok m =>
      rw [h] at hsome
      exact congrArg _ (Option.some.inj hsome)
  exact ⟨hread, ofText_toText.2.2 looseText n hread⟩

end Node

end PatternSampler
