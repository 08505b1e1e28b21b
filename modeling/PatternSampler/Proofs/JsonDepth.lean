import PatternSampler.Proofs.JsonValues

/-!
# What is read is nested as deep as was allowed

Whatever a text holds, a value that is read from it is nested no deeper than the reader was allowed
to go. A scalar opens no bracket, and the loops over items and members keep what holds of the parts.
-/

namespace PatternSampler.Json

namespace Number

/-- A number with an exponent opens no bracket. -/
theorem nesting_exponentPart {negative : Bool} {significand : Nat} {power : Int}
    {cs rest : List Char} {j : Json}
    (h : exponentPart negative significand power cs = .ok (j, rest)) : j.nesting = 0 := by
  -- Where the exponent is too large, the number is a zero or none at all.
  have hzero {p : Prop} [Decidable p] {e : Fault} {a b : Json × List Char}
      (h : (if p then .error e else .ok a : Except Fault (Json × List Char)) = .ok b) : a = b := by
    split at h
    · cases h
    · exact Except.ok.inj h
  unfold exponentPart at h
  dsimp only at h
  split at h
  · cases h
  · cases h
  split at h
  · cases hzero h
    rfl
  · obtain ⟨x, -, h⟩ := bind_eq_ok h
    cases h
    rfl

/-- A number with a point or many digits opens no bracket. -/
theorem nesting_floatTail {negative : Bool} {significand : Nat} {power : Int}
    {cs rest : List Char} {j : Json} (h : floatTail negative significand power cs = .ok (j, rest)) :
    j.nesting = 0 := by
  unfold floatTail at h
  split at h
  · exact nesting_exponentPart h
  · exact nesting_exponentPart h
  · obtain ⟨x, -, h⟩ := bind_eq_ok h
    cases h
    rfl

/-- A number without a point opens no bracket. -/
theorem nesting_whole (negative : Bool) (magnitude : Nat) :
    (whole negative magnitude).nesting = 0 := by
  unfold whole
  split
  · rfl
  split
  · rfl
  · rfl

/-- A number opens no bracket. -/
theorem nesting_unsigned {negative : Bool} {cs rest : List Char} {j : Json}
    (h : unsigned negative cs = .ok (j, rest)) : j.nesting = 0 := by
  unfold unsigned at h
  split at h
  · cases h
  · cases h
  · cases h
  dsimp only at h
  split at h
  · split at h
    · cases h
    · cases h
    · exact nesting_floatTail h
  · exact nesting_exponentPart h
  · exact nesting_exponentPart h
  split at h
  · cases h
    exact nesting_whole _ _
  · exact nesting_floatTail h

end Number

/-- A scalar opens no bracket. -/
theorem nesting_scalar {c : Char} {cs rest : List Char} {j : Json}
    (h : scalar c cs = .ok (j, rest)) : j.nesting = 0 := by
  have hmap {α : Type} {x : Except Fault α} {f : α → Json × List Char}
      (hf : ∀ a, (f a).1.nesting = 0) (h : x.map f = .ok (j, rest)) : j.nesting = 0 := by
    obtain ⟨a, -, ha⟩ := map_eq_ok h
    have hzero := hf a
    rwa [ha] at hzero
  unfold scalar at h
  split at h
  · exact hmap (fun _ => rfl) h
  split at h
  · exact hmap (fun _ => rfl) h
  split at h
  · exact hmap (fun _ => rfl) h
  split at h
  · exact hmap (fun _ => rfl) h
  split at h
  · unfold Number.read at h
    split at h
    · exact Number.nesting_unsigned h
    · exact Number.nesting_unsigned h
  · cases h

/-- If all items that can be read are nested no deeper than a limit, then so are those of an
array. -/
theorem nesting_itemsFrom {item : Reader Json} {depth : Nat}
    (hitem : ∀ cs j rest, item cs = .ok (j, rest) → j.nesting ≤ depth) {fuel : Nat} {isFirst : Bool}
    {cs rest : List Char} {js : List Json} (h : itemsFrom item fuel isFirst cs = .ok (js, rest)) :
    nestingItems js ≤ depth := by
  induction fuel generalizing isFirst cs js with
  | zero => cases h
  | succ fuel ih =>
    obtain ⟨⟨more, cs⟩, -, h⟩ := bind_eq_ok h
    cases more with
    | false =>
      cases h
      exact Nat.zero_le _
    | true =>
      obtain ⟨⟨j, cs⟩, hj, h⟩ := bind_eq_ok h
      obtain ⟨⟨js, cs⟩, hjs, h⟩ := bind_eq_ok h
      cases h
      exact Nat.max_le.mpr ⟨hitem _ _ _ hj, ih hjs⟩

/-- What each step keeps is kept by the loop over the members of an object. -/
theorem membersFrom_keeps {σ ε : Type} {fault : Fault → ε}
    {step : σ → String → List Char → Except ε (σ × List Char)} {P : σ → Prop}
    (hstep : ∀ s name cs s' rest, P s → step s name cs = .ok (s', rest) → P s') {fuel : Nat}
    {isFirst : Bool} {s s' : σ} {cs rest : List Char} (hs : P s)
    (h : membersFrom fault step fuel isFirst s cs = .ok (s', rest)) : P s' := by
  induction fuel generalizing isFirst s cs with
  | zero => cases h
  | succ fuel ih =>
    obtain ⟨⟨name, cs⟩, -, h⟩ := bind_eq_ok h
    cases name with
    | none =>
      cases h
      exact hs
    | some name =>
      obtain ⟨⟨s₁, cs⟩, hs₁, h⟩ := bind_eq_ok h
      exact ih (hstep _ _ _ _ _ hs hs₁) h

/-- Members are nested as deep in any order. -/
theorem nestingMembers_append (ms ms' : List (String × Json)) :
    nestingMembers (ms ++ ms') = max (nestingMembers ms) (nestingMembers ms') := by
  induction ms with
  | nil => exact (Nat.zero_max _).symm
  | cons m ms ih =>
    rw [List.cons_append, nestingMembers, nestingMembers, ih, Nat.max_assoc]

/-- Members are nested as deep when they are turned round. -/
theorem nestingMembers_reverse (ms : List (String × Json)) :
    nestingMembers ms.reverse = nestingMembers ms := by
  induction ms with
  | nil => rfl
  | cons m ms ih =>
    rw [List.reverse_cons, nestingMembers_append, ih, nestingMembers, nestingMembers,
      nestingMembers, Nat.max_zero, Nat.max_comm]

/-- A value that is read is nested no deeper than the reader may go. -/
theorem nesting_value {fuel depth : Nat} {cs rest : List Char} {j : Json}
    (h : value fuel depth cs = .ok (j, rest)) : j.nesting ≤ depth := by
  induction depth generalizing cs rest j with
  | zero =>
    rw [value.eq_def] at h
    dsimp only at h
    -- Brackets are refused here, so only scalars are left.
    split at h
    · cases h
    split at h
    · cases h
    split at h
    · cases h
    · exact Nat.le_of_eq (nesting_scalar h)
  | succ depth ih =>
    rw [value.eq_def] at h
    dsimp only at h
    split at h
    · cases h
    split at h
    · obtain ⟨⟨js, cs⟩, hjs, h⟩ := bind_eq_ok h
      cases h
      exact Nat.succ_le_succ (nesting_itemsFrom (fun _ _ _ hj => ih hj) hjs)
    split at h
    · obtain ⟨⟨ms, cs⟩, hms, h⟩ := bind_eq_ok h
      cases h
      -- The members are kept in turn, the last one first.
      have hkept : nestingMembers ms ≤ depth := by
        refine membersFrom_keeps (P := fun ms => nestingMembers ms ≤ depth) ?_ (Nat.zero_le _) hms
        intro ms name cs ms' rest hms hstep
        obtain ⟨cs, -, hstep⟩ := bind_eq_ok hstep
        obtain ⟨⟨j, cs⟩, hj, hstep⟩ := bind_eq_ok hstep
        cases hstep
        exact Nat.max_le.mpr ⟨ih hj, hms⟩
      rw [nesting, nestingMembers_reverse]
      exact Nat.succ_le_succ hkept
    · exact Nat.le_trans (Nat.le_of_eq (nesting_scalar h)) (Nat.zero_le _)

end PatternSampler.Json
