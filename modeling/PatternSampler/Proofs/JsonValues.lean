import PatternSampler.Proofs.JsonScalars

/-!
# Written values are read back, as deep as the reader goes

A reader that may open a number of brackets inside one another reads a written value back if it is
nested no deeper than that, and else says that it is (`value_write`). The loops over items and
members are shown to do with a written container what the step does with its parts one by one
(`itemsFrom_write`, `membersFrom_write`), so that other readers of objects can use this as well.
-/

namespace PatternSampler

/-- Two computations in a row succeed if the first does and the second does with its value. -/
theorem bind_eq_ok {ε α β : Type} {x : Except ε α} {f : α → Except ε β} {b : β}
    (h : x >>= f = .ok b) : ∃ a, x = .ok a ∧ f a = .ok b := by
  cases x with
  | error e => cases h
  | ok a => exact ⟨a, rfl, h⟩

/-- A computation whose value is changed succeeds if it did before. -/
theorem map_eq_ok {ε α β : Type} {x : Except ε α} {f : α → β} {b : β} (h : x.map f = .ok b) :
    ∃ a, x = .ok a ∧ f a = b := by
  cases x with
  | error e => cases h
  | ok a =>
    cases h
    exact ⟨a, rfl, rfl⟩

/-- A computation whose error is changed succeeds if it did before. -/
theorem mapError_eq_ok {ε ε' α : Type} {x : Except ε α} {f : ε → ε'} {a : α}
    (h : x.mapError f = .ok a) : x = .ok a := by
  cases x with
  | error e => cases h
  | ok b =>
    cases h
    rfl

namespace Json

mutual

/-- How many brackets are open at once, where a value has the most of them. -/
def nesting : Json → Nat
  | array items => nestingItems items + 1
  | object members => nestingMembers members + 1
  | _ => 0

/-- The largest nesting of some values. -/
def nestingItems : List Json → Nat
  | [] => 0
  | j :: js => max j.nesting (nestingItems js)

/-- The largest nesting of the values of some members. -/
def nestingMembers : List (String × Json) → Nat
  | [] => 0
  | (_, j) :: ms => max j.nesting (nestingMembers ms)

end

mutual

/-- A value can be read back if all the scalars in it can. -/
def Plain : Json → Prop
  | array items => PlainItems items
  | object members => PlainMembers members
  | j => j.Leaf

/-- Some values can be read back. -/
def PlainItems : List Json → Prop
  | [] => True
  | j :: js => j.Plain ∧ PlainItems js

/-- The values of some members can be read back. -/
def PlainMembers : List (String × Json) → Prop
  | [] => True
  | (_, j) :: ms => j.Plain ∧ PlainMembers ms

end

/-- If members can be read back, so can the value of each of them. -/
theorem plain_of_mem {members : List (String × Json)} (hplain : PlainMembers members)
    {m : String × Json} (hm : m ∈ members) : m.2.Plain := by
  induction members with
  | nil => cases hm
  | cons m' ms ih =>
    rw [PlainMembers] at hplain
    rcases List.mem_cons.mp hm with rfl | hm
    · exact hplain.1
    · exact ih hplain.2 hm

/-- A value, if it is nested no deeper than a limit. -/
def within (depth : Nat) (j : Json) : Except Fault Json :=
  if j.nesting ≤ depth then .ok j else .error .tooNested

/-- A written member. -/
def writeMember (member : String × Json) : List Char :=
  Text.write member.1 ++ ':' :: member.2.write

/-- The items after the first are written behind commas. -/
theorem writeItems_cons (j : Json) (js : List Json) :
    writeItems (j :: js) = j.write ++ js.flatMap fun j => ',' :: j.write := by
  induction js generalizing j with
  | nil => rw [writeItems, List.flatMap_nil, List.append_nil]
  | cons j' js ih =>
    rw [writeItems, ih, List.flatMap_cons, List.cons_append]
    exact List.cons_ne_nil _ _

/-- The members after the first are written behind commas. -/
theorem writeMembers_cons (m : String × Json) (ms : List (String × Json)) :
    writeMembers (m :: ms) = writeMember m ++ ms.flatMap fun m => ',' :: writeMember m := by
  induction ms generalizing m with
  | nil =>
    rw [List.flatMap_nil, List.append_nil]
    rfl
  | cons m' ms ih =>
    rw [writeMembers, ih, List.flatMap_cons, List.cons_append]
    · rfl
    · exact List.cons_ne_nil _ _

/-- Text that does not start with a blank is not skipped. -/
theorem skipBlanks_cons {c : Char} (hc : isBlank c = false) (cs : List Char) :
    skipBlanks (c :: cs) = c :: cs := by
  rw [skipBlanks, List.dropWhile_cons, hc, if_neg Bool.false_ne_true]

/-- A leaf starts with neither a blank nor a closing bracket. -/
theorem leaf_opens {j : Json} (hj : j.Leaf) :
    ∃ c cs, j.write = c :: cs ∧ isBlank c = false ∧ c ≠ ']' := by
  obtain ⟨c, cs, hwrite, hopens, -⟩ := scalar_leaf hj
  exact ⟨c, cs, hwrite, hopens.1, hopens.2.1⟩

/-- A value that can be read back starts with neither a blank nor a closing bracket. -/
theorem write_opens {j : Json} (hj : j.Plain) :
    ∃ c cs, j.write = c :: cs ∧ isBlank c = false ∧ c ≠ ']' := by
  cases j with
  | array items => exact ⟨'[', _, by rw [write]; rfl, by decide, by decide⟩
  | object members => exact ⟨'\x7b', _, by rw [write]; rfl, by decide, by decide⟩
  | null => exact leaf_opens (j := null) hj
  | bool b => exact leaf_opens (j := bool b) hj
  | integer n => exact leaf_opens (j := integer n) hj
  | string s => exact leaf_opens (j := string s) hj
  | float x => exact leaf_opens (j := float x) hj

/-- A written value follows where an array starts. -/
theorem nextItem_first {j : Json} (hj : j.Plain) (rest : List Char) :
    nextItem true (j.write ++ rest) = .ok (true, j.write ++ rest) := by
  obtain ⟨c, cs, hwrite, hblank, hclose⟩ := write_opens hj
  rw [hwrite, List.cons_append, nextItem, skipBlanks_cons hblank]
  dsimp only
  rw [if_neg hclose, if_pos rfl]

/-- A written value follows behind a comma in an array. -/
theorem nextItem_comma {j : Json} (hj : j.Plain) (rest : List Char) :
    nextItem false (',' :: (j.write ++ rest)) = .ok (true, j.write ++ rest) := by
  obtain ⟨c, cs, hwrite, hblank, hclose⟩ := write_opens hj
  rw [hwrite, List.cons_append, nextItem, skipBlanks_cons (by decide)]
  dsimp only
  rw [if_neg (by decide), if_neg Bool.false_ne_true, if_pos rfl, skipBlanks_cons hblank]
  dsimp only
  rw [if_neg hclose]

/-- A comma or a closing bracket stops a value. -/
theorem stops_more {α : Type} (write : α → List Char) (as : List α) {c : Char}
    (hc : c = ']' ∨ c = '\x7d') (rest : List Char) :
    Stops ((as.flatMap fun a => ',' :: write a) ++ c :: rest) := by
  intro d hd
  cases as with
  | nil =>
    cases hd
    exact .inr hc
  | cons a as =>
    cases hd
    exact .inl rfl

section Items

variable {item : Reader Json} {f : Json → Except Fault Json}

/-- The closing bracket ends an array. -/
theorem itemsFrom_nil (fuel : Nat) (isFirst : Bool) (rest : List Char) :
    itemsFrom item (fuel + 1) isFirst (']' :: rest) = .ok ([], rest) := by
  rw [itemsFrom, nextItem, skipBlanks_cons (by decide)]
  rfl

/-- An item that follows is read, and then those behind it. -/
theorem itemsFrom_cons {fuel : Nat} {isFirst : Bool} {cs cs' : List Char} {j : Json}
    {rest : List Char} (hnext : nextItem isFirst cs = .ok (true, cs'))
    (hitem : item cs' = (f j).map (·, rest)) :
    itemsFrom item (fuel + 1) isFirst cs = (do
      let j ← f j
      let (js, rest) ← itemsFrom item fuel false rest
      .ok (j :: js, rest)) := by
  rw [itemsFrom, hnext]
  show (item cs' >>= fun r => itemsFrom item fuel false r.2 >>= fun r' =>
    Except.ok (r.1 :: r'.1, r'.2)) = _
  rw [hitem]
  cases f j with
  | error e => rfl
  | ok j => rfl

/-- The items behind the first are read one by one, each from its written form. -/
theorem itemsFrom_more {items : List Json} (hplain : PlainItems items) {fuel : Nat}
    (hfuel : items.length < fuel)
    (hitem : ∀ j ∈ items, ∀ rest, Stops rest → item (j.write ++ rest) = (f j).map (·, rest))
    (rest : List Char) :
    itemsFrom item fuel false ((items.flatMap fun j => ',' :: j.write) ++ ']' :: rest) =
      (items.mapM f).map (·, rest) := by
  induction items generalizing fuel with
  | nil =>
    obtain ⟨fuel, rfl⟩ := Nat.exists_eq_succ_of_ne_zero (Nat.ne_of_gt hfuel)
    exact itemsFrom_nil fuel false rest
  | cons j js ih =>
    obtain ⟨fuel, rfl⟩ := Nat.exists_eq_succ_of_ne_zero (Nat.ne_of_gt (Nat.zero_lt_of_lt hfuel))
    -- The item is followed by a comma or by the closing bracket, and both stop it.
    have hread := hitem j List.mem_cons_self _ (stops_more write js (.inl rfl) rest)
    have hmore := ih hplain.2 (Nat.lt_of_succ_lt_succ hfuel)
      fun j hj => hitem j (List.mem_cons_of_mem _ hj)
    rw [List.flatMap_cons, List.cons_append, List.cons_append, List.append_assoc,
      itemsFrom_cons (nextItem_comma hplain.1 _) hread, hmore, List.mapM_cons]
    cases f j with
    | error e => rfl
    | ok j => cases js.mapM f <;> rfl

/-- The items of a written array are read one by one, each from its written form. -/
theorem itemsFrom_write {items : List Json} (hplain : PlainItems items) {fuel : Nat}
    (hfuel : items.length < fuel)
    (hitem : ∀ j ∈ items, ∀ rest, Stops rest → item (j.write ++ rest) = (f j).map (·, rest))
    (rest : List Char) :
    itemsFrom item fuel true (writeItems items ++ ']' :: rest) =
      (items.mapM f).map (·, rest) := by
  obtain ⟨fuel, rfl⟩ := Nat.exists_eq_succ_of_ne_zero (Nat.ne_of_gt (Nat.zero_lt_of_lt hfuel))
  cases items with
  | nil => exact itemsFrom_nil fuel true rest
  | cons j js =>
    have hread := hitem j List.mem_cons_self _ (stops_more write js (.inl rfl) rest)
    have hmore := itemsFrom_more hplain.2 (Nat.lt_of_succ_lt_succ hfuel)
      (fun j hj => hitem j (List.mem_cons_of_mem _ hj)) rest
    rw [writeItems_cons, List.append_assoc, itemsFrom_cons (nextItem_first hplain.1 _) hread, hmore,
      List.mapM_cons]
    cases f j with
    | error e => rfl
    | ok j => cases js.mapM f <;> rfl

/-- Some values are all within a limit if the most nested one is. -/
theorem mapM_within (depth : Nat) (items : List Json) :
    items.mapM (within depth) =
      if nestingItems items ≤ depth then .ok items else .error .tooNested := by
  induction items with
  | nil => rfl
  | cons j js ih =>
    rw [List.mapM_cons, ih, within, nestingItems]
    by_cases hj : j.nesting ≤ depth
    · rw [if_pos hj]
      by_cases hjs : nestingItems js ≤ depth
      · rw [if_pos hjs, if_pos (Nat.max_le.mpr ⟨hj, hjs⟩)]
        rfl
      · rw [if_neg hjs, if_neg fun h => hjs (Nat.max_le.mp h).2]
        rfl
    · rw [if_neg hj, if_neg fun h => hj (Nat.max_le.mp h).1]
      rfl

end Items

section Members

variable {σ ε : Type} {fault : Fault → ε}
  {step : σ → String → List Char → Except ε (σ × List Char)} {f : σ → String × Json → Except ε σ}

/-- A written name is read back from behind its opening mark. -/
theorem body_name (name : String) (rest : List Char) :
    (Text.body (name.toList.flatMap Text.escape ++ '"' :: rest)).map
        (fun (s, rest) => (some (String.ofList s), rest)) = .ok (some name, rest) := by
  rw [Text.body_write]
  exact congrArg (fun s => Except.ok (some s, rest)) String.ofList_toList

/-- A written name stands between two marks. -/
theorem writeName_append (name : String) (rest : List Char) :
    Text.write name ++ rest = '"' :: (name.toList.flatMap Text.escape ++ '"' :: rest) := by
  rw [Text.write, List.cons_append, List.cons_append, List.append_assoc, List.singleton_append]

/-- A written name follows where an object starts. -/
theorem nextName_first (name : String) (rest : List Char) :
    nextName true (Text.write name ++ rest) = .ok (some name, rest) := by
  rw [writeName_append, nextName, skipBlanks_cons (by decide)]
  exact body_name name rest

/-- A written name follows behind a comma in an object. -/
theorem nextName_comma (name : String) (rest : List Char) :
    nextName false (',' :: (Text.write name ++ rest)) = .ok (some name, rest) := by
  rw [writeName_append, nextName, skipBlanks_cons (by decide)]
  dsimp only
  rw [if_neg (by decide), if_neg Bool.false_ne_true, if_pos rfl, skipBlanks_cons (by decide)]
  exact body_name name rest

/-- The closing bracket ends an object. -/
theorem membersFrom_nil (fuel : Nat) (isFirst : Bool) (s : σ) (rest : List Char) :
    membersFrom fault step (fuel + 1) isFirst s ('\x7d' :: rest) = .ok (s, rest) := by
  rw [membersFrom, nextName, skipBlanks_cons (by decide)]
  rfl

/-- A member that follows is read, and then those behind it. -/
theorem membersFrom_cons {fuel : Nat} {isFirst : Bool} {cs cs' rest : List Char} {s : σ}
    {m : String × Json} (hnext : nextName isFirst cs = .ok (some m.1, cs'))
    (hstep : step s m.1 cs' = (f s m).map (·, rest)) :
    membersFrom fault step (fuel + 1) isFirst s cs = (do
      let s ← f s m
      membersFrom fault step fuel false s rest) := by
  rw [membersFrom, hnext]
  show (step s m.1 cs' >>= fun r => membersFrom fault step fuel false r.1 r.2) = _
  rw [hstep]
  cases f s m with
  | error e => rfl
  | ok s => rfl

variable (fault) in
/-- The members behind the first are read one by one, each from its written form. -/
theorem membersFrom_more {members : List (String × Json)} {fuel : Nat}
    (hfuel : members.length < fuel)
    (hstep : ∀ m ∈ members, ∀ s rest, Stops rest →
      step s m.1 (':' :: m.2.write ++ rest) = (f s m).map (·, rest)) (s : σ) (rest : List Char) :
    membersFrom fault step fuel false s
        ((members.flatMap fun m => ',' :: writeMember m) ++ '\x7d' :: rest) =
      (members.foldlM f s).map (·, rest) := by
  induction members generalizing fuel s with
  | nil =>
    obtain ⟨fuel, rfl⟩ := Nat.exists_eq_succ_of_ne_zero (Nat.ne_of_gt hfuel)
    exact membersFrom_nil fuel false s rest
  | cons m ms ih =>
    obtain ⟨fuel, rfl⟩ := Nat.exists_eq_succ_of_ne_zero (Nat.ne_of_gt (Nat.zero_lt_of_lt hfuel))
    -- The value is followed by a comma or by the closing bracket, and both stop it.
    have hread := hstep m List.mem_cons_self s _ (stops_more writeMember ms (.inr rfl) rest)
    have hmore := ih (Nat.lt_of_succ_lt_succ hfuel) fun m hm => hstep m (List.mem_cons_of_mem _ hm)
    rw [List.flatMap_cons, List.cons_append, List.cons_append, List.append_assoc, writeMember,
      List.append_assoc, membersFrom_cons (nextName_comma m.1 _) hread, List.foldlM_cons]
    cases f s m with
    | error e => rfl
    | ok s => exact hmore s

variable (fault) in
/-- The members of a written object are read one by one, each from its written form. -/
theorem membersFrom_write {members : List (String × Json)} {fuel : Nat}
    (hfuel : members.length < fuel)
    (hstep : ∀ m ∈ members, ∀ s rest, Stops rest →
      step s m.1 (':' :: m.2.write ++ rest) = (f s m).map (·, rest)) (s : σ) (rest : List Char) :
    membersFrom fault step fuel true s (writeMembers members ++ '\x7d' :: rest) =
      (members.foldlM f s).map (·, rest) := by
  obtain ⟨fuel, rfl⟩ := Nat.exists_eq_succ_of_ne_zero (Nat.ne_of_gt (Nat.zero_lt_of_lt hfuel))
  cases members with
  | nil => exact membersFrom_nil fuel true s rest
  | cons m ms =>
    have hread := hstep m List.mem_cons_self s _ (stops_more writeMember ms (.inr rfl) rest)
    have hmore (s : σ) := membersFrom_more fault (Nat.lt_of_succ_lt_succ hfuel)
      (fun m hm => hstep m (List.mem_cons_of_mem _ hm)) s rest
    rw [writeMembers_cons, List.append_assoc, writeMember, List.append_assoc,
      membersFrom_cons (nextName_first m.1 _) hread, List.foldlM_cons]
    cases f s m with
    | error e => rfl
    | ok s => exact hmore s

end Members

/-- A loop that takes in each member that is within a limit takes in all of them if the most nested
one is. -/
theorem foldlM_within {σ ε : Type} {f : σ → String × Json → Except ε σ}
    {enter : σ → String × Json → σ} {e : ε} {depth : Nat} {members : List (String × Json)}
    (hf : ∀ m ∈ members, ∀ s,
      f s m = if m.2.nesting ≤ depth then .ok (enter s m) else .error e) (s : σ) :
    members.foldlM f s =
      if nestingMembers members ≤ depth then .ok (members.foldl enter s) else .error e := by
  induction members generalizing s with
  | nil => rfl
  | cons m ms ih =>
    have hms := ih fun m hm => hf m (List.mem_cons_of_mem _ hm)
    rw [List.foldlM_cons, hf m List.mem_cons_self, nestingMembers]
    by_cases hm : m.2.nesting ≤ depth
    · rw [if_pos hm]
      show ms.foldlM f (enter s m) = _
      rw [hms]
      by_cases hrest : nestingMembers ms ≤ depth
      · rw [if_pos hrest, if_pos (Nat.max_le.mpr ⟨hm, hrest⟩)]
        rfl
      · rw [if_neg hrest, if_neg fun h => hrest (Nat.max_le.mp h).2]
    · rw [if_neg hm, if_neg fun h => hm (Nat.max_le.mp h).1]
      rfl

/-- A member whose value is within a limit, put in front of the ones before it. -/
def keepWithin (depth : Nat) (earlier : List (String × Json)) (m : String × Json) :
    Except Fault (List (String × Json)) :=
  (m.2.within depth).map fun j => (m.1, j) :: earlier

/-- Some members are all within a limit if the most nested one is. -/
theorem foldlM_keepWithin (depth : Nat) (members earlier : List (String × Json)) :
    members.foldlM (keepWithin depth) earlier =
      if nestingMembers members ≤ depth then .ok (members.reverse ++ earlier)
      else .error .tooNested := by
  have hkeep (m : String × Json) (earlier : List (String × Json)) : keepWithin depth earlier m =
      if m.2.nesting ≤ depth then .ok (m :: earlier) else .error .tooNested := by
    rw [keepWithin, within]
    split <;> rfl
  rw [foldlM_within fun m _ => hkeep m, List.foldl_flip_cons_eq_append']

section Lengths

variable {α : Type} (write : α → List Char)

/-- Each of some parts behind commas takes a character. -/
theorem length_le_more (as : List α) :
    as.length ≤ (as.flatMap fun a => ',' :: write a).length := by
  induction as with
  | nil => exact Nat.le_refl 0
  | cons a as ih =>
    rw [List.flatMap_cons, List.length_append, List.length_cons, List.length_cons]
    omega

/-- None of some parts behind commas is longer than all of them. -/
theorem length_write_le_more {as : List α} {a : α} (ha : a ∈ as) :
    (write a).length ≤ (as.flatMap fun a => ',' :: write a).length := by
  induction as with
  | nil => cases ha
  | cons b as ih =>
    rw [List.flatMap_cons, List.length_append, List.length_cons]
    rcases List.mem_cons.mp ha with rfl | ha
    · omega
    · have hle := ih ha
      omega

end Lengths

/-- A written array has a character for each of its items. -/
theorem length_le_writeItems {items : List Json} (hplain : PlainItems items) :
    items.length ≤ (writeItems items).length := by
  cases items with
  | nil => exact Nat.zero_le _
  | cons j js =>
    obtain ⟨c, cs, hwrite, -⟩ := write_opens hplain.1
    have hmore := length_le_more write js
    rw [writeItems_cons, hwrite, List.length_append, List.length_cons, List.length_cons]
    omega

/-- No item is longer than a written array. -/
theorem length_write_le_items {items : List Json} {j : Json} (hj : j ∈ items) :
    j.write.length ≤ (writeItems items).length := by
  cases items with
  | nil => cases hj
  | cons j' js =>
    rw [writeItems_cons, List.length_append]
    rcases List.mem_cons.mp hj with rfl | hj
    · omega
    · have hmore := length_write_le_more write hj
      omega

/-- A written object has a character for each of its members. -/
theorem length_le_writeMembers (members : List (String × Json)) :
    members.length ≤ (writeMembers members).length := by
  cases members with
  | nil => exact Nat.zero_le _
  | cons m ms =>
    have hmore := length_le_more writeMember ms
    rw [writeMembers_cons, writeMember, List.length_append, List.length_append, List.length_cons,
      List.length_cons]
    omega

/-- No member's value is longer than a written object. -/
theorem length_write_le_members {members : List (String × Json)} {m : String × Json}
    (hm : m ∈ members) : m.2.write.length ≤ (writeMembers members).length := by
  have hmember (m : String × Json) : m.2.write.length ≤ (writeMember m).length := by
    rw [writeMember, List.length_append, List.length_cons]
    omega
  cases members with
  | nil => cases hm
  | cons m' ms =>
    rw [writeMembers_cons, List.length_append]
    rcases List.mem_cons.mp hm with rfl | hm
    · exact Nat.le_trans (hmember m) (Nat.le_add_right _ _)
    · have hmore := length_write_le_more writeMember hm
      have hle := hmember m
      omega

/-- A scalar is read where it starts, whatever brackets may be opened. -/
theorem value_scalar {c : Char} (hc : OpensScalar c) (fuel depth : Nat) (rest : List Char) :
    value fuel depth (c :: rest) = scalar c rest := by
  obtain ⟨hblank, -, harray, hobject⟩ := hc
  rw [value.eq_def]
  dsimp only
  rw [skipBlanks_cons hblank]
  dsimp only
  rw [if_neg harray, if_neg hobject]

/-- A leaf is read back from its written form. -/
theorem value_leaf {j : Json} (hj : j.Leaf) (fuel depth : Nat) {rest : List Char}
    (hstops : Stops rest) : value fuel depth (j.write ++ rest) = .ok (j, rest) := by
  obtain ⟨c, cs, hwrite, hopens, hread⟩ := scalar_leaf hj
  rw [hwrite, List.cons_append, value_scalar hopens, hread rest hstops]

/-- The head of a leaf is read back from its written form. -/
theorem headOf_leaf {j : Json} (hj : j.Leaf) {rest : List Char} (hstops : Stops rest) :
    headOf (j.write ++ rest) = .ok (j.head, rest) := by
  obtain ⟨c, cs, hwrite, ⟨hblank, -, harray, hobject⟩, hread⟩ := scalar_leaf hj
  rw [hwrite, List.cons_append, headOf, skipBlanks_cons hblank]
  dsimp only
  rw [if_neg harray, if_neg hobject, hread rest hstops]
  rfl

/-- A colon is read off the front of a text. -/
theorem colon_cons (rest : List Char) : colon (':' :: rest) = .ok rest := by
  rw [colon, skipBlanks_cons (by decide)]
  rfl

/-- No bracket is opened when none may be. -/
theorem value_zero {c : Char} (hc : c = '[' ∨ c = '\x7b') (fuel : Nat) (rest : List Char) :
    value fuel 0 (c :: rest) = .error .tooNested := by
  rcases hc with rfl | rfl
  · rfl
  · rfl

/-- An array is read by the loop over its items, with one bracket less to open. -/
theorem value_array (fuel depth : Nat) (rest : List Char) :
    value fuel (depth + 1) ('[' :: rest) =
      (itemsFrom (value fuel depth) fuel true rest).map fun (js, rest) => (.array js, rest) := by
  rw [value.eq_def]
  dsimp only
  rw [skipBlanks_cons (by decide)]
  dsimp only
  rw [if_pos rfl]
  cases itemsFrom (value fuel depth) fuel true rest <;> rfl

/-- An object is read by the loop over its members, with one bracket less to open. -/
theorem value_object (fuel depth : Nat) (rest : List Char) :
    value fuel (depth + 1) ('\x7b' :: rest) =
      (membersFrom id
        (fun ms name rest => do
          let rest ← colon rest
          let (j, rest) ← value fuel depth rest
          .ok ((name, j) :: ms, rest)) fuel true [] rest).map
        fun (ms, rest) => (.object ms.reverse, rest) := by
  rw [value.eq_def]
  dsimp only
  rw [skipBlanks_cons (by decide)]
  dsimp only
  rw [if_neg (by decide), if_pos rfl]
  rfl

mutual

/-- A written value is read back if it is within the limit, and said to be too nested if not. -/
theorem value_write (fuel : Nat) (j : Json) (hplain : j.Plain) (hfuel : j.write.length < fuel)
    (depth : Nat) {rest : List Char} (hstops : Stops rest) :
    value fuel depth (j.write ++ rest) = (j.within depth).map (·, rest) := by
  match j with
  | .null => exact value_leaf (j := .null) hplain fuel depth hstops
  | .bool b => exact value_leaf (j := .bool b) hplain fuel depth hstops
  | .integer n => exact value_leaf (j := .integer n) hplain fuel depth hstops
  | .string s => exact value_leaf (j := .string s) hplain fuel depth hstops
  | .float x => exact value_leaf (j := .float x) hplain fuel depth hstops
  | .array items =>
    rw [Plain] at hplain
    rw [write, List.length_append, List.length_cons] at hfuel
    -- Every item takes part of the text, so the fuel lasts for each of them and for their number.
    have hitems := value_write_items fuel items hplain fun j hj => by
      have hle := length_write_le_items hj
      omega
    have hlength := length_le_writeItems hplain
    rw [write, List.append_assoc, List.cons_append, List.singleton_append, within, nesting]
    cases depth with
    | zero =>
      -- No bracket may be opened, and an array has one, whatever is in it.
      rw [value_zero (.inl rfl), if_neg (by omega)]
      rfl
    | succ depth =>
      rw [value_array, itemsFrom_write hplain (by omega) fun j hj => hitems j hj depth,
        mapM_within]
      simp only [Nat.add_le_add_iff_right]
      split <;> rfl
  | .object members =>
    rw [Plain] at hplain
    rw [write, List.length_append, List.length_cons] at hfuel
    have hvalues := value_write_members fuel members hplain fun m hm => by
      have hle := length_write_le_members hm
      omega
    have hlength := length_le_writeMembers members
    rw [write, List.append_assoc, List.cons_append, List.singleton_append, within, nesting]
    cases depth with
    | zero =>
      rw [value_zero (.inr rfl), if_neg (by omega)]
      rfl
    | succ depth =>
      rw [value_object, membersFrom_write (f := keepWithin depth) id (by omega) ?_,
        foldlM_keepWithin]
      · simp only [Nat.add_le_add_iff_right]
        split
        · rw [List.append_nil]
          simp [Except.map]
        · rfl
      · intro m hm ms rest hrest
        have hvalue := hvalues m hm depth rest hrest
        rw [List.cons_append, colon_cons]
        show (value fuel depth (m.2.write ++ rest) >>= fun r =>
          Except.ok ((m.1, r.1) :: ms, r.2)) = _
        rw [hvalue, keepWithin]
        cases m.2.within depth <;> rfl

/-- So is each of some written items. -/
theorem value_write_items (fuel : Nat) (items : List Json) (hplain : PlainItems items)
    (hfuel : ∀ j ∈ items, j.write.length < fuel) :
    ∀ j ∈ items, ∀ depth rest, Stops rest →
      value fuel depth (j.write ++ rest) = (j.within depth).map (·, rest) := by
  intro j hj depth rest hrest
  match items with
  | [] => cases hj
  | j' :: js =>
    rw [PlainItems] at hplain
    rcases List.mem_cons.mp hj with heq | hj
    · rw [heq]
      exact value_write fuel j' hplain.1 (hfuel j' List.mem_cons_self) depth hrest
    · exact value_write_items fuel js hplain.2
        (fun j hj => hfuel j (List.mem_cons_of_mem _ hj)) j hj depth rest hrest

/-- So is the value of each of some written members. -/
theorem value_write_members (fuel : Nat) (members : List (String × Json))
    (hplain : PlainMembers members) (hfuel : ∀ m ∈ members, m.2.write.length < fuel) :
    ∀ m ∈ members, ∀ depth rest, Stops rest →
      value fuel depth (m.2.write ++ rest) = (m.2.within depth).map (·, rest) := by
  intro m hm depth rest hrest
  match members with
  | [] => cases hm
  | (name, j) :: ms =>
    rw [PlainMembers] at hplain
    rcases List.mem_cons.mp hm with heq | hm
    · rw [heq]
      exact value_write fuel j hplain.1 (hfuel (name, j) List.mem_cons_self) depth hrest
    · exact value_write_members fuel ms hplain.2
        (fun m hm => hfuel m (List.mem_cons_of_mem _ hm)) m hm depth rest hrest

end

/-- The text of a value is a document that holds it, if it is nested no deeper than a document may
be. -/
theorem ofText_render {j : Json} (hplain : j.Plain) (hnesting : j.nesting ≤ maxNesting) :
    ofText j.render = .ok j := by
  have hlist : j.render.toList = j.write := String.toList_ofList
  have hends : Stops [] := fun c hc => nomatch hc
  have hvalue :=
    value_write (j.write.length + 1) j hplain (Nat.lt_succ_self _) maxNesting hends
  rw [List.append_nil, within, if_pos hnesting] at hvalue
  rw [ofText, hlist]
  show (value (j.write.length + 1) maxNesting j.write >>= fun r =>
    ending r.2 >>= fun _ => Except.ok r.1) = _
  rw [hvalue]
  rfl

end Json

end PatternSampler
