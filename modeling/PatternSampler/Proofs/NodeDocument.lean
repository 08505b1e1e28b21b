import PatternSampler.Proofs.NodeText

/-!
# A document is read as its value is

The root of a pattern tree is read by a loop of its own, which checks an offset and a text where
they stand and keeps the other members for the end. In a text that is a JSON document this makes no
difference: the tree, or what is wrong with its shape, is the one that the decoder of values finds
in the value of the document (`ofText_eq_ofJson`). So where a text is a document, reading a tree
from it fails for a wrong shape only.
-/

namespace PatternSampler

namespace Json

/-- A value starts with its head. A value that opens no bracket ends with it. -/
theorem headOf_of_value {fuel depth : Nat} {cs rest : List Char} {j : Json}
    (h : value fuel depth cs = .ok (j, rest)) :
    ∃ rest', headOf cs = .ok (j.head, rest') ∧ (j.nesting = 0 → rest' = rest) := by
  rw [value.eq_def] at h
  dsimp only at h
  rw [headOf]
  split at h
  · cases h
  split at h
  · next hc =>
    subst hc
    cases depth with
    | zero => cases h
    | succ depth =>
      obtain ⟨⟨js, cs⟩, -, h⟩ := bind_eq_ok h
      cases h
      refine ⟨_, rfl, fun hnesting => ?_⟩
      cases hnesting
  split at h
  · next hc =>
    subst hc
    cases depth with
    | zero => cases h
    | succ depth =>
      obtain ⟨⟨ms, cs⟩, -, h⟩ := bind_eq_ok h
      cases h
      refine ⟨_, rfl, fun hnesting => ?_⟩
      cases hnesting
  · next harray hobject =>
    dsimp only
    rw [if_neg harray, if_neg hobject, h]
    exact ⟨rest, rfl, fun _ => rfl⟩

/-- An object is read by the loop over its members, with one bracket less to open. -/
theorem members_of_value {fuel depth : Nat} {cs rest : List Char} {members : List (String × Json)}
    (h : value fuel (depth + 1) cs = .ok (.object members, rest)) :
    ∃ cs', headOf cs = .ok (.object, cs') ∧
      membersFrom id
        (fun ms name rest => do
          let rest ← colon rest
          let (j, rest) ← value fuel depth rest
          .ok ((name, j) :: ms, rest)) fuel true [] cs' = .ok (members.reverse, rest) := by
  rw [value.eq_def] at h
  dsimp only at h
  rw [headOf]
  split at h
  · cases h
  split at h
  · obtain ⟨⟨js, cs⟩, -, h⟩ := bind_eq_ok h
    cases h
  split at h
  · next hc =>
    subst hc
    obtain ⟨⟨ms, cs⟩, hms, h⟩ := bind_eq_ok h
    cases h
    refine ⟨_, rfl, ?_⟩
    rw [List.reverse_reverse]
    exact hms
  · -- A scalar opens no bracket, so it is no object.
    cases nesting_scalar h

/-- If a loop over members reads all of them as values, then another loop does with them what its
step does with their names and values, one by one. -/
theorem membersFrom_of_values {σ ε : Type} (fault : Fault → ε)
    {step : σ → String → List Char → Except ε (σ × List Char)}
    {enter : σ → String × Json → Except ε σ} {fuel depth : Nat}
    (hstep : ∀ s name cs cs' j rest, colon cs = .ok cs' → value fuel depth cs' = .ok (j, rest) →
      step s name cs = (enter s (name, j)).map (·, rest))
    {count : Nat} {isFirst : Bool} {earlier ms : List (String × Json)} {cs rest : List Char}
    (h : membersFrom id
      (fun ms name rest => do
        let rest ← colon rest
        let (j, rest) ← value fuel depth rest
        .ok ((name, j) :: ms, rest)) count isFirst earlier cs = .ok (ms, rest)) :
    ∃ members : List (String × Json), ms = members.reverse ++ earlier ∧
      ∀ s, membersFrom fault step count isFirst s cs = (members.foldlM enter s).map (·, rest) := by
  induction count generalizing isFirst earlier cs with
  | zero => cases h
  | succ count ih =>
    obtain ⟨⟨name?, cs₁⟩, hname, h⟩ := bind_eq_ok h
    have hname := mapError_eq_ok hname
    cases name? with
    | none =>
      cases h
      refine ⟨[], rfl, fun s => ?_⟩
      rw [membersFrom, hname]
      rfl
    | some name =>
      obtain ⟨⟨ms₁, cs₂⟩, hmember, h⟩ := bind_eq_ok h
      obtain ⟨cs₃, hcolon, hmember⟩ := bind_eq_ok hmember
      obtain ⟨⟨j, _⟩, hvalue, hmember⟩ := bind_eq_ok hmember
      cases hmember
      obtain ⟨members, hms, hloop⟩ := ih h
      refine ⟨(name, j) :: members, ?_, fun s => ?_⟩
      · rw [hms, List.reverse_cons, List.append_assoc, List.singleton_append]
      · rw [membersFrom, hname, List.foldlM_cons]
        show (step s name cs₁ >>= fun r => membersFrom fault step count false r.1 r.2) = _
        rw [hstep s name cs₁ cs₃ j cs₂ hcolon hvalue]
        cases enter s (name, j) with
        | error e => rfl
        | ok s₁ => exact hloop s₁

end Json

/-- A value that opens a bracket is neither an offset nor a text. -/
theorem MarkForm.fill_bracket (form : MarkForm) {name : String}
    (hname : name = "offset" ∨ name = "text") {j : Json} (hj : j.nesting ≠ 0) :
    ∃ e, form.fill name j.head = .error e := by
  obtain ⟨offset, text⟩ := form
  -- Scalars are excluded, so only the two brackets are left.
  cases j with
  | null | bool | integer | float | string => exact absurd rfl hj
  | array | object =>
    rcases hname with rfl | rfl
    · cases offset <;> exact ⟨_, rfl⟩
    · cases text <;> exact ⟨_, rfl⟩

namespace Draft

/-- A member that has a value is entered with it. -/
theorem member_of_value {fuel : Nat} {cs cs' rest : List Char} {j : Json}
    (hcolon : Json.colon cs = .ok cs')
    (hvalue : Json.value fuel (Json.maxNesting - 1) cs' = .ok (j, rest)) (draft : Draft)
    (name : String) :
    draft.member fuel name cs = (draft.enter (name, j)).map (·, rest) := by
  rw [member, enter]
  split
  · rfl
  split
  · next hname =>
    obtain ⟨rest', hhead, hrest⟩ := Json.headOf_of_value hvalue
    rw [hcolon]
    show ((Json.headOf cs').mapError DocumentError.malformed >>= fun r =>
      (draft.mark.fill name r.1).mapError DocumentError.wrongShape >>= fun mark =>
        Except.ok ({ draft with mark }, r.2)) = _
    rw [hhead]
    show ((draft.mark.fill name j.head).mapError DocumentError.wrongShape >>= fun mark =>
      Except.ok ({ draft with mark }, rest')) = _
    by_cases hnesting : j.nesting = 0
    · rw [hrest hnesting]
      cases draft.mark.fill name j.head <;> rfl
    · obtain ⟨e, he⟩ := draft.mark.fill_bracket hname hnesting
      rw [he]
      rfl
  · rw [hcolon]
    show ((Json.value fuel (Json.maxNesting - 1) cs').mapError DocumentError.malformed >>= fun r =>
        Except.ok ({ draft with kept := (name, r.1) :: draft.kept }, r.2)) = _
    rw [hvalue, Json.within, if_pos (Json.nesting_value hvalue)]
    rfl

/-- The members that are no part of a mark. -/
def others : List (String × Json) → List (String × Json)
  | [] => []
  | (name, j) :: members =>
    if name = "offset" ∨ name = "text" then others members else (name, j) :: others members

/-- An offset or a text is entered in the mark. If there is one already, the mark says so, too. -/
theorem enter_mark (draft : Draft) {name : String} (hname : name = "offset" ∨ name = "text")
    (j : Json) :
    draft.enter (name, j) =
      ((draft.mark.fill name j.head).mapError .wrongShape).map ({ draft with mark := · }) := by
  obtain ⟨⟨offset, text⟩, kept⟩ := draft
  rw [enter, if_pos hname]
  rcases hname with rfl | rfl
  · cases offset <;> rfl
  · cases text <;> rfl

/-- Members within the limit are entered one by one like those of a mark, and all but those are
kept. -/
theorem foldlM_enter_eq (draft : Draft) {members : List (String × Json)}
    (hmembers : Json.nestingMembers members ≤ Json.maxNesting - 1) :
    members.foldlM enter draft =
      ((draft.mark.fillFrom members).mapError .wrongShape).map fun mark =>
        { mark, kept := (others members).reverse ++ draft.kept } := by
  induction members generalizing draft with
  | nil => rfl
  | cons m ms ih =>
    obtain ⟨name, j⟩ := m
    rw [Json.nestingMembers, Nat.max_le] at hmembers
    rw [List.foldlM_cons, MarkForm.fillFrom, others]
    by_cases hname : name = "offset" ∨ name = "text"
    · rw [enter_mark draft hname, if_pos hname]
      cases draft.mark.fill name j.head with
      | error e => rfl
      | ok mark => exact ih { draft with mark } hmembers.2
    · have hfill : draft.mark.fill name j.head = .ok draft.mark := by
        rw [MarkForm.fill, if_neg fun h => hname (.inl h), if_neg fun h => hname (.inr h)]
      rw [enter_other draft (not_or.mp hname), if_pos hmembers.1, if_neg hname, hfill]
      show ms.foldlM enter { draft with kept := (name, j) :: draft.kept } = _
      rw [ih _ hmembers.2, List.reverse_cons, List.append_assoc, List.singleton_append]
      rfl

end Draft

namespace Node

/-- The parts of a mark are not taken for a tag. -/
theorem search_others (found : Option Tag) (members : List (String × Json)) :
    Tag.search found (Draft.others members) = Tag.search found members := by
  induction members generalizing found with
  | nil => rfl
  | cons m ms ih =>
    obtain ⟨name, j⟩ := m
    rw [Draft.others]
    split
    · next hname =>
      have htype : name ≠ "type" := by
        rintro rfl
        exact absurd hname (by decide)
      rw [ih, Tag.search, if_neg htype]
      rfl
    · rw [Tag.search, Tag.search]
      simp only [ih]

/-- The parts of a mark are not taken for a field. -/
theorem fillFrom_others (form : Form) (members : List (String × Json)) :
    fillFrom form (Draft.others members) = fillFrom form members := by
  induction members generalizing form with
  | nil => rfl
  | cons m ms ih =>
    obtain ⟨name, j⟩ := m
    rw [Draft.others]
    split
    · next hname =>
      have hheading : name ∈ headingNames := by
        rcases hname with rfl | rfl <;> decide
      rw [ih, fillFrom_heading form hheading]
    · rw [fillFrom, fillFrom]
      simp only [ih]

/-- A draft in which members have been entered is completed to the node that they describe. -/
theorem complete_foldlM_enter {members : List (String × Json)}
    (hmembers : Json.nestingMembers members ≤ Json.maxNesting - 1) :
    (members.foldlM Draft.enter { } >>= fun draft => draft.complete.mapError .wrongShape) =
      (ofJson (.object members)).mapError .wrongShape := by
  rw [Draft.foldlM_enter_eq { } hmembers, ofJson_object, Mark.ofMembers]
  show ((({ } : MarkForm).fillFrom members).mapError _).map _ >>= _ = _
  cases MarkForm.fillFrom { } members with
  | error e => rfl
  | ok form =>
    show (Draft.complete { mark := form, kept := (Draft.others members).reverse ++ [] }).mapError
      DocumentError.wrongShape = (ofMembers form.complete members).mapError DocumentError.wrongShape
    rw [Draft.complete, List.append_nil, List.reverse_reverse, ofMembers, ofMembers, Tag.ofMembers,
      Tag.ofMembers, search_others]
    simp only [fillFrom_others]

/-- A tree is read from a document as from its value, and so is what is wrong with its shape. -/
theorem read_of_value {fuel : Nat} {cs rest : List Char} {j : Json}
    (h : Json.value fuel Json.maxNesting cs = .ok (j, rest)) :
    Node.read fuel cs = ((ofJson j).mapError .wrongShape).map (·, rest) := by
  cases j with
  | object members =>
    obtain ⟨cs', hhead, hmembers⟩ := Json.members_of_value h
    obtain ⟨members', heq, hloop⟩ := Json.membersFrom_of_values DocumentError.malformed
      (fun draft name cs cs' j rest hcolon hvalue =>
        Draft.member_of_value hcolon hvalue draft name) hmembers
    rw [List.append_nil, List.reverse_inj] at heq
    subst heq
    have hnesting : Json.nestingMembers members ≤ Json.maxNesting - 1 :=
      Nat.le_sub_one_of_lt (Json.nesting_value h)
    rw [Node.read, hhead]
    show (Json.membersFrom .malformed (Draft.member fuel) fuel true { } cs' >>= fun r =>
      r.1.complete.mapError DocumentError.wrongShape >>= fun node => Except.ok (node, r.2)) = _
    rw [hloop, ← complete_foldlM_enter hnesting]
    cases members.foldlM Draft.enter { } with
    | error e => rfl
    | ok draft =>
      show (draft.complete.mapError DocumentError.wrongShape >>= fun node =>
        Except.ok (node, rest)) = (draft.complete.mapError DocumentError.wrongShape).map (·, rest)
      cases draft.complete <;> rfl
  | null | bool | integer | float | string | array =>
    obtain ⟨rest', hhead, -⟩ := Json.headOf_of_value h
    rw [Node.read, hhead]
    rfl

/-- A tree is read from a document as from its value, and so is what is wrong with its shape. -/
theorem ofText_eq_ofJson {text : String} {j : Json} (h : Json.ofText text = .ok j) :
    Node.ofText text = (ofJson j).mapError .wrongShape := by
  obtain ⟨⟨j, rest⟩, hvalue, h⟩ := bind_eq_ok h
  obtain ⟨⟨⟩, hending, h⟩ := bind_eq_ok h
  cases h
  rw [ofText]
  show (Node.read (text.toList.length + 1) text.toList >>= fun r =>
    (Json.ending r.2).mapError DocumentError.malformed >>= fun _ => Except.ok r.1) = _
  rw [read_of_value hvalue]
  cases ofJson j with
  | error e => rfl
  | ok n =>
    show ((Json.ending rest).mapError DocumentError.malformed >>= fun _ => Except.ok n) = _
    rw [hending]
    rfl

end Node

end PatternSampler
