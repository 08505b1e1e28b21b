import PatternSampler.Proofs.JsonRuns

/-!
# Other spellings of a document

The same document can be written in many ways: with blanks between its parts or without, and with
the characters of its strings as they are or escaped. `Respelled` relates the texts that differ in
nothing else. It says so part by part, and not by way of a reader.

Two such texts, if both are documents, hold the same value (`ofText_respelled`). The readers go
through both texts side by side. Where one of them takes a part off the front of its text, the other
takes the same part off the front of its own, and the texts that are left differ in their spelling
only.
-/

namespace PatternSampler.Json

namespace Text

/-- What a part of a string stands for. A character stands for itself, or it is escaped by a letter,
by the four digits of its unit or by two units that make a pair. -/
inductive Spells : List Char → List Char → Prop where
  | nil : Spells [] []
  | plain {c : Char} {text cs : List Char} (hmark : c ≠ '"') (hslash : c ≠ '\\')
      (hprints : 0x20 ≤ c.toNat) (h : Spells text cs) : Spells (c :: text) (c :: cs)
  | letter {e c : Char} {text cs : List Char} (he : unescape? e = some c) (h : Spells text cs) :
      Spells ('\\' :: e :: text) (c :: cs)
  | unit {x₁ x₂ x₃ x₄ : Char} {unit : Nat} {text cs : List Char}
      (hunit : hexUnit? x₁ x₂ x₃ x₄ = some unit) (htrailing : isTrailing unit = false)
      (hleading : isLeading unit = false) (h : Spells text cs) :
      Spells ('\\' :: 'u' :: x₁ :: x₂ :: x₃ :: x₄ :: text) (Char.ofNat unit :: cs)
  | pair {x₁ x₂ x₃ x₄ y₁ y₂ y₃ y₄ : Char} {unit unit' : Nat} {text cs : List Char}
      (hunit : hexUnit? x₁ x₂ x₃ x₄ = some unit) (hleading : isLeading unit = true)
      (hunit' : hexUnit? y₁ y₂ y₃ y₄ = some unit') (htrailing : isTrailing unit' = true)
      (h : Spells text cs) :
      Spells ('\\' :: 'u' :: x₁ :: x₂ :: x₃ :: x₄ :: '\\' :: 'u' :: y₁ :: y₂ :: y₃ :: y₄ :: text)
        (Text.pair unit unit' :: cs)

/-- Characters that need no escapes stand for themselves. -/
theorem spells_self {cs : List Char} (h : ∀ c ∈ cs, c ≠ '"' ∧ c ≠ '\\' ∧ 0x20 ≤ c.toNat) :
    Spells cs cs := by
  induction cs with
  | nil => exact .nil
  | cons c cs ih =>
    rw [List.forall_mem_cons] at h
    obtain ⟨⟨hmark, hslash, hprints⟩, hcs⟩ := h
    exact .plain hmark hslash hprints (ih hcs)

/-- Two units are read as the character that they make as a pair. -/
theorem body_pair {x₁ x₂ x₃ x₄ y₁ y₂ y₃ y₄ : Char} {unit unit' : Nat}
    (hunit : hexUnit? x₁ x₂ x₃ x₄ = some unit) (hleading : isLeading unit = true)
    (hunit' : hexUnit? y₁ y₂ y₃ y₄ = some unit') (htrailing : isTrailing unit' = true)
    (rest : List Char) :
    body ('\\' :: 'u' :: x₁ :: x₂ :: x₃ :: x₄ :: '\\' :: 'u' :: y₁ :: y₂ :: y₃ :: y₄ :: rest) =
      push (pair unit unit') (body rest) := by
  have hfirst : isTrailing unit = false := by
    simp only [isLeading, isTrailing, Bool.and_eq_true, decide_eq_true_eq, Bool.and_eq_false_iff,
      decide_eq_false_iff_not] at hleading ⊢
    omega
  rw [body.eq_def]
  dsimp only
  rw [if_neg (by decide), if_pos rfl, if_pos rfl, hunit]
  dsimp only
  rw [if_neg (by rw [hfirst]; exact Bool.false_ne_true), if_pos hleading, if_neg (by decide),
    if_neg (by decide), hunit']
  exact if_pos htrailing

/-- A string is read as the characters that it stands for, however they are spelled. -/
theorem body_spells {text cs : List Char} (h : Spells text cs) (rest : List Char) :
    body (text ++ '"' :: rest) = .ok (cs, rest) := by
  induction h with
  | nil => exact body_mark rest
  | plain hmark hslash hprints _ ih =>
    rw [List.cons_append, body_plain hmark hslash hprints, ih]
    rfl
  | @letter e c _ _ he _ ih =>
    have hu : e ≠ 'u' := by
      rintro rfl
      cases he
    rw [List.cons_append, List.cons_append, body_letter hu he, ih]
    rfl
  | unit hunit htrailing hleading _ ih =>
    exact (body_unit hunit htrailing hleading _).trans (congrArg (push _) ih)
  | pair hunit hleading hunit' htrailing _ ih =>
    exact (body_pair hunit hleading hunit' htrailing _).trans (congrArg (push _) ih)

end Text

/-- Two texts have the same parts. They may differ in the blanks between these, and in how the
characters of strings are spelled. -/
inductive Respelled : List Char → List Char → Prop where
  | finish : Respelled [] []
  | blankLeft {c : Char} {cs cs' : List Char} (hc : isBlank c = true) (h : Respelled cs cs') :
      Respelled (c :: cs) cs'
  | blankRight {c : Char} {cs cs' : List Char} (hc : isBlank c = true) (h : Respelled cs cs') :
      Respelled cs (c :: cs')
  | mark {c : Char} {cs cs' : List Char} (hc : c ∈ marks) (h : Respelled cs cs') :
      Respelled (c :: cs) (c :: cs')
  | string {text text' s cs cs' : List Char} (hs : Text.Spells text s) (hs' : Text.Spells text' s)
      (h : Respelled cs cs') : Respelled ('"' :: (text ++ '"' :: cs)) ('"' :: (text' ++ '"' :: cs'))
  | run {w cs cs' : List Char} (hne : w ≠ []) (hw : ∀ c ∈ w, c ∉ separators) (hcs : EndsRun cs)
      (hcs' : EndsRun cs') (h : Respelled cs cs') : Respelled (w ++ cs) (w ++ cs')

/-- Two texts that start with the same part, from which on they differ in spelling only. -/
inductive Front : List Char → List Char → Prop where
  | finish : Front [] []
  | mark {c : Char} {cs cs' : List Char} (hc : c ∈ marks) (h : Respelled cs cs') :
      Front (c :: cs) (c :: cs')
  | string {s cs cs' rest rest' : List Char} (hs : Text.body cs = .ok (s, rest))
      (hs' : Text.body cs' = .ok (s, rest')) (h : Respelled rest rest') :
      Front ('"' :: cs) ('"' :: cs')
  | run {c : Char} {w cs cs' : List Char} (hc : c ∉ separators) (hw : ∀ c ∈ w, c ∉ separators)
      (hcs : EndsRun cs) (hcs' : EndsRun cs') (h : Respelled cs cs') :
      Front (c :: (w ++ cs)) (c :: (w ++ cs'))

/-- A mark is no blank. -/
theorem isBlank_of_mem_marks {c : Char} (hc : c ∈ marks) : isBlank c = false := by
  have hall : marks.all (!isBlank ·) = true := by decide
  have hblank := List.all_eq_true.mp hall c hc
  rwa [Bool.not_eq_true'] at hblank

/-- A character of a run is no blank. -/
theorem isBlank_of_not_mem_separators {c : Char} (hc : c ∉ separators) : isBlank c = false := by
  by_contra h
  simp only [Bool.not_eq_false, isBlank, Bool.or_eq_true, decide_eq_true_eq] at h
  rcases h with ((rfl | rfl) | rfl) | rfl <;> exact hc (by decide)

/-- Blanks at the front are passed over. -/
theorem skipBlanks_blank {c : Char} (hc : isBlank c = true) (cs : List Char) :
    skipBlanks (c :: cs) = skipBlanks cs := by
  rw [skipBlanks, List.dropWhile_cons, if_pos hc]
  rfl

/-- After the blanks at their fronts, two spellings start with the same part. -/
theorem front_skipBlanks {cs cs' : List Char} (h : Respelled cs cs') :
    Front (skipBlanks cs) (skipBlanks cs') := by
  induction h with
  | finish => exact .finish
  | blankLeft hc _ ih =>
    rw [skipBlanks_blank hc]
    exact ih
  | blankRight hc _ ih =>
    rw [skipBlanks_blank hc]
    exact ih
  | mark hc h =>
    rw [skipBlanks_cons (isBlank_of_mem_marks hc), skipBlanks_cons (isBlank_of_mem_marks hc)]
    exact .mark hc h
  | string hs hs' h =>
    rw [skipBlanks_cons (by decide), skipBlanks_cons (by decide)]
    exact .string (Text.body_spells hs _) (Text.body_spells hs' _) h
  | @run w cs cs' hne hw hcs hcs' h =>
    obtain ⟨c, w, rfl⟩ := List.exists_cons_of_ne_nil hne
    obtain ⟨hc, hw⟩ := List.forall_mem_cons.mp hw
    rw [List.cons_append, List.cons_append, skipBlanks_cons (isBlank_of_not_mem_separators hc),
      skipBlanks_cons (isBlank_of_not_mem_separators hc)]
    exact .run hc hw hcs hcs' h

/-- Two spellings without the blanks at their fronts are spellings of the same. -/
theorem respelled_skipBlanks {cs cs' : List Char} (h : Respelled cs cs') :
    Respelled (skipBlanks cs) (skipBlanks cs') := by
  induction h with
  | finish => exact .finish
  | blankLeft hc _ ih =>
    rw [skipBlanks_blank hc]
    exact ih
  | blankRight hc _ ih =>
    rw [skipBlanks_blank hc]
    exact ih
  | mark hc h =>
    rw [skipBlanks_cons (isBlank_of_mem_marks hc), skipBlanks_cons (isBlank_of_mem_marks hc)]
    exact .mark hc h
  | string hs hs' h =>
    rw [skipBlanks_cons (by decide), skipBlanks_cons (by decide)]
    exact .string hs hs' h
  | @run w cs cs' hne hw hcs hcs' h =>
    obtain ⟨c, v, rfl⟩ := List.exists_cons_of_ne_nil hne
    have hblank := isBlank_of_not_mem_separators (hw c List.mem_cons_self)
    rw [List.cons_append, List.cons_append, skipBlanks_cons hblank, skipBlanks_cons hblank]
    exact .run hne hw hcs hcs' h

/-- Two fronts are empty, or they start with the same character. If that is a mark, then what comes
after it differs in spelling only. -/
theorem Front.eq_nil_or_eq_cons {cs cs' : List Char} (h : Front cs cs') :
    (cs = [] ∧ cs' = []) ∨
      ∃ c rest rest', cs = c :: rest ∧ cs' = c :: rest' ∧ (c ∈ marks → Respelled rest rest') := by
  cases h with
  | finish => exact .inl ⟨rfl, rfl⟩
  | mark _ h => exact .inr ⟨_, _, _, rfl, rfl, fun _ => h⟩
  | string => exact .inr ⟨_, _, _, rfl, rfl, fun hc => absurd hc (by decide)⟩
  | run hc =>
    exact .inr ⟨_, _, _, rfl, rfl, fun hmark => absurd (by simp [separators, hmark]) hc⟩

/-- Two readers, each on a text of its own, agree: if both succeed, then they find the same and
leave texts that differ in spelling only. -/
def Agree {α : Type} (x x' : Except Fault (α × List Char)) : Prop :=
  ∀ a a' rest rest', x = .ok (a, rest) → x' = .ok (a', rest') → a = a' ∧ Respelled rest rest'

namespace Agree

variable {α β : Type} {x x' : Except Fault (α × List Char)}

/-- A reader that fails agrees with every other one. -/
theorem error_left {e : Fault} : Agree (.error e) x' := by
  intro _ _ _ _ h
  cases h

/-- Every reader agrees with one that fails. -/
theorem error_right {e : Fault} : Agree x (.error e) := by
  intro _ _ _ _ _ h
  cases h

/-- Readers that find the same agree if the texts after it differ in spelling only. -/
theorem ok {a : α} {rest rest' : List Char} (h : Respelled rest rest') :
    Agree (.ok (a, rest)) (.ok (a, rest')) := by
  intro _ _ _ _ hx hx'
  cases hx
  cases hx'
  exact ⟨rfl, h⟩

/-- Readers agree if their first steps do, and after these the others. -/
theorem bind {f f' : α × List Char → Except Fault (β × List Char)} (h : Agree x x')
    (hf : ∀ a rest rest', Respelled rest rest' → Agree (f (a, rest)) (f' (a, rest'))) :
    Agree (x >>= f) (x' >>= f') := by
  intro b b' end₁ end₂ hx hx'
  obtain ⟨⟨a, rest⟩, hstep, hx⟩ := bind_eq_ok hx
  obtain ⟨⟨a', rest'⟩, hstep', hx'⟩ := bind_eq_ok hx'
  obtain ⟨rfl, hrest⟩ := h _ _ _ _ hstep hstep'
  exact hf a rest rest' hrest _ _ _ _ hx hx'

end Agree

/-- What is left of a run is followed by texts that differ in spelling only. -/
theorem Respelled.append {w cs cs' : List Char} (hw : ∀ c ∈ w, c ∉ separators) (hcs : EndsRun cs)
    (hcs' : EndsRun cs') (h : Respelled cs cs') : Respelled (w ++ cs) (w ++ cs') := by
  by_cases hne : w = []
  · rw [hne]
    exact h
  · exact .run hne hw hcs hcs' h

/-- The scalars at the fronts of two spellings agree. -/
theorem agree_scalar {c : Char} {cs cs' : List Char} (h : Front (c :: cs) (c :: cs')) :
    Agree (scalar c cs) (scalar c cs') := by
  cases h with
  | mark hc =>
    have hnone : scalar c cs = .error .expectedValue := by
      simp only [marks, List.mem_cons, List.not_mem_nil, or_false] at hc
      rcases hc with rfl | rfl | rfl | rfl | rfl | rfl <;> rfl
    rw [hnone]
    exact .error_left
  | @string s _ _ rest rest' hs hs' h =>
    rw [scalar, scalar, if_pos rfl, if_pos rfl, hs, hs']
    exact .ok h
  | @run _ w cs cs' hc hw hcs hcs' h =>
    intro j j' rest rest' hread hread'
    obtain ⟨v, hv, hrest, hrun⟩ := scalar_run hc hcs hread
    obtain ⟨v', -, hrest', hrun'⟩ := scalar_run hc hcs' hread'
    rw [hrun] at hrun'
    cases hrun'
    have hall : ∀ d ∈ c :: w, d ∉ separators := List.forall_mem_cons.mpr ⟨hc, hw⟩
    rw [hrest, hrest']
    exact ⟨rfl, h.append (fun d hd => hall d (hv.subset hd)) hcs hcs'⟩

/-- Whether another item follows is the same in two spellings. -/
theorem agree_nextItem {isFirst : Bool} {cs cs' : List Char} (h : Respelled cs cs') :
    Agree (nextItem isFirst cs) (nextItem isFirst cs') := by
  have hskip := respelled_skipBlanks h
  rw [nextItem, nextItem]
  rcases (front_skipBlanks h).eq_nil_or_eq_cons with
    ⟨heq, heq'⟩ | ⟨c, rest, rest', heq, heq', hrest⟩
  · rw [heq]
    exact .error_left
  rw [heq, heq'] at hskip ⊢
  dsimp only
  split
  · next hc => exact .ok (hrest (hc ▸ by decide))
  split
  · exact .ok hskip
  split
  · next hc =>
    have h := hrest (hc ▸ by decide)
    have hskip := respelled_skipBlanks h
    rcases (front_skipBlanks h).eq_nil_or_eq_cons with ⟨heq, heq'⟩ | ⟨c, rest, rest', heq, heq', -⟩
    · rw [heq]
      exact .error_left
    rw [heq, heq'] at hskip ⊢
    dsimp only
    split
    · exact .error_left
    · exact .ok hskip
  · exact .error_left

/-- The names at the fronts of two spellings agree. -/
theorem agree_name {cs cs' : List Char} (h : Front ('"' :: cs) ('"' :: cs')) :
    Agree ((Text.body cs).map fun (s, rest) => (some (String.ofList s), rest))
      ((Text.body cs').map fun (s, rest) => (some (String.ofList s), rest)) := by
  cases h with
  | mark hc => exact absurd hc (by decide)
  | string hs hs' h =>
    rw [hs, hs']
    exact .ok h
  | run hc => exact absurd (by decide) hc

/-- The next name is the same in two spellings. -/
theorem agree_nextName {isFirst : Bool} {cs cs' : List Char} (h : Respelled cs cs') :
    Agree (nextName isFirst cs) (nextName isFirst cs') := by
  have hfront := front_skipBlanks h
  rw [nextName, nextName]
  rcases hfront.eq_nil_or_eq_cons with ⟨heq, heq'⟩ | ⟨c, rest, rest', heq, heq', hrest⟩
  · rw [heq]
    exact .error_left
  rw [heq, heq'] at hfront ⊢
  dsimp only
  split
  · next hc => exact .ok (hrest (hc ▸ by decide))
  split
  · split
    · next hc => exact agree_name (hc ▸ hfront)
    · exact .error_left
  split
  · next hc =>
    have hfront := front_skipBlanks (hrest (hc ▸ by decide))
    rcases hfront.eq_nil_or_eq_cons with ⟨heq, heq'⟩ | ⟨c, rest, rest', heq, heq', -⟩
    · rw [heq]
      exact .error_left
    rw [heq, heq'] at hfront ⊢
    dsimp only
    split
    · next hc => exact agree_name (hc ▸ hfront)
    split
    · exact .error_left
    · exact .error_left
  · exact .error_left

/-- After the colons of two spellings comes what differs in spelling only. -/
theorem respelled_colon {cs cs' rest rest' : List Char} (h : Respelled cs cs')
    (hrest : colon cs = .ok rest) (hrest' : colon cs' = .ok rest') : Respelled rest rest' := by
  rw [colon] at hrest hrest'
  rcases (front_skipBlanks h).eq_nil_or_eq_cons with ⟨heq, -⟩ | ⟨c, rest, rest', heq, heq', h⟩
  · rw [heq] at hrest
    cases hrest
  rw [heq] at hrest
  rw [heq'] at hrest'
  dsimp only at hrest hrest'
  split at hrest
  · next hc =>
    rw [if_pos hc] at hrest'
    cases hrest
    cases hrest'
    exact h (hc ▸ by decide)
  · cases hrest

/-- The items of two spellings agree if each of them does. -/
theorem agree_itemsFrom {item item' : Reader Json}
    (hitem : ∀ cs cs', Respelled cs cs' → Agree (item cs) (item' cs')) {fuel fuel' : Nat}
    {isFirst : Bool} {cs cs' : List Char} (h : Respelled cs cs') :
    Agree (itemsFrom item fuel isFirst cs) (itemsFrom item' fuel' isFirst cs') := by
  induction fuel generalizing fuel' isFirst cs cs' with
  | zero => exact .error_left
  | succ fuel ih =>
    cases fuel' with
    | zero => exact .error_right
    | succ fuel' =>
      refine (agree_nextItem h).bind fun more rest rest' hrest => ?_
      cases more with
      | false => exact .ok hrest
      | true =>
        exact (hitem rest rest' hrest).bind fun j _ _ hmore =>
          (ih hmore).bind fun js _ _ hend => .ok hend

/-- The members of two spellings agree if each of them does. -/
theorem agree_membersFrom {σ : Type} {step step' : σ → String → List Char →
      Except Fault (σ × List Char)}
    (hstep : ∀ s name cs cs', Respelled cs cs' → Agree (step s name cs) (step' s name cs'))
    {fuel fuel' : Nat} {isFirst : Bool} {s : σ} {cs cs' : List Char} (h : Respelled cs cs') :
    Agree (membersFrom id step fuel isFirst s cs) (membersFrom id step' fuel' isFirst s cs') := by
  induction fuel generalizing fuel' isFirst s cs cs' with
  | zero => exact .error_left
  | succ fuel ih =>
    cases fuel' with
    | zero => exact .error_right
    | succ fuel' =>
      have hname : Agree ((nextName isFirst cs).mapError id) ((nextName isFirst cs').mapError id) :=
        fun _ _ _ _ hread hread' =>
          agree_nextName h _ _ _ _ (mapError_eq_ok hread) (mapError_eq_ok hread')
      refine hname.bind fun name? rest rest' hrest => ?_
      cases name? with
      | none => exact .ok hrest
      | some name => exact (hstep s name rest rest' hrest).bind fun s _ _ hmore => ih hmore

/-- The values at the fronts of two spellings agree. -/
theorem agree_value {fuel fuel' : Nat} (depth : Nat) {cs cs' : List Char} (h : Respelled cs cs') :
    Agree (value fuel depth cs) (value fuel' depth cs') := by
  have hfront := front_skipBlanks h
  rw [value.eq_def, value.eq_def]
  dsimp only
  rcases hfront.eq_nil_or_eq_cons with ⟨heq, heq'⟩ | ⟨c, rest, rest', heq, heq', hrest⟩
  · rw [heq]
    exact .error_left
  rw [heq, heq'] at hfront ⊢
  dsimp only
  split
  · next hc =>
    cases depth with
    | zero => exact .error_left
    | succ depth =>
      exact (agree_itemsFrom (fun _ _ h => agree_value depth h) (hrest (hc ▸ by decide))).bind
        fun js _ _ hend => .ok hend
  split
  · next hc =>
    cases depth with
    | zero => exact .error_left
    | succ depth =>
      refine (agree_membersFrom (fun ms name cs cs' h => ?_) (hrest (hc ▸ by decide))).bind
        fun ms _ _ hend => .ok hend
      intro ms' ms'' end₁ end₂ hread hread'
      obtain ⟨cs₁, hcolon, hread⟩ := bind_eq_ok hread
      obtain ⟨cs₂, hcolon', hread'⟩ := bind_eq_ok hread'
      obtain ⟨⟨j, _⟩, hvalue, hread⟩ := bind_eq_ok hread
      obtain ⟨⟨j', _⟩, hvalue', hread'⟩ := bind_eq_ok hread'
      cases hread
      cases hread'
      obtain ⟨rfl, hend⟩ :=
        agree_value depth (respelled_colon h hcolon hcolon') _ _ _ _ hvalue hvalue'
      exact ⟨rfl, hend⟩
  · exact agree_scalar hfront

/-- A document has one value, however it is spelled. -/
theorem ofText_respelled {text text' : String} {j j' : Json}
    (h : Respelled text.toList text'.toList) (hread : ofText text = .ok j)
    (hread' : ofText text' = .ok j') : j = j' := by
  obtain ⟨⟨j, rest⟩, hvalue, hread⟩ := bind_eq_ok hread
  obtain ⟨-, -, hread⟩ := bind_eq_ok hread
  obtain ⟨⟨j', rest'⟩, hvalue', hread'⟩ := bind_eq_ok hread'
  obtain ⟨-, -, hread'⟩ := bind_eq_ok hread'
  cases hread
  cases hread'
  exact (agree_value maxNesting h _ _ _ _ hvalue hvalue').1

end PatternSampler.Json
