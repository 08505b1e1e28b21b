import PatternSampler.Proofs.Draws

/-!
# What a sampler guarantees

A source may do what it likes as long as it answers a query for an integer within the bounds of the
query. `Sampler.Guarantees` says what a sampler guarantees then, without a source: it asks for
integers between bounds that are in order, its value has a property, and so has its error.
`Guarantees.bind` puts guarantees together, and `Guarantees.run` reads them off a run. The kinds of
choices each come with what they guarantee.
-/

namespace PatternSampler

/-- An answer keeps to the bounds of an integer. Nothing is asked of the answers to other
queries. -/
def Query.Keeps : (q : Query) → q.Answer → Prop
  | .integer least most, n => least ≤ most → least ≤ n ∧ n ≤ most
  | .boolean, _ | .character, _ => True

/-- The bounds of a query for an integer are in order. -/
def Query.Ordered : Query → Prop
  | .integer least most => least ≤ most
  | .boolean | .character => True

/-- A source gives integers within bounds. Its characters may be any. -/
def Source.KeepsIntegers {σ : Type} (src : Source σ) : Prop :=
  ∀ (q : Query) (s : σ), q.Keeps (src.answer q s).1

/-- A source that keeps to its bounds gives integers within bounds. -/
theorem Source.InBounds.keepsIntegers {σ : Type} {src : Source σ} (h : src.InBounds) :
    src.KeepsIntegers := by
  intro q s
  have hallows := h q s
  cases q with
  | integer least most => exact hallows
  | boolean | character => trivial

namespace Sampler

variable {α β : Type}

/-- As long as integers are answered within their bounds, a sampler asks for integers between bounds
that are in order, gives values with one property and ends with errors with another. -/
def Guarantees (Q : α → Prop) (E : SampleError → Prop) : Sampler α → Prop
  | done a => Q a
  | fail e => E e
  | note _ next => (next ()).Guarantees Q E
  | ask q next => q.Ordered ∧ ∀ a, q.Keeps a → (next a).Guarantees Q E

variable {Q : α → Prop} {E : SampleError → Prop}

/-- A value has the property that is guaranteed if it has it. -/
@[simp] theorem guarantees_pure {a : α} : (pure a : Sampler α).Guarantees Q E ↔ Q a := Iff.rfl

/-- Two samplers in a row guarantee what the second does after every value of the first. -/
theorem Guarantees.bind {p : Sampler α} {f : α → Sampler β} {R : β → Prop}
    (hp : p.Guarantees Q E) (hf : ∀ a, Q a → (f a).Guarantees R E) :
    (p >>= f).Guarantees R E := by
  induction p with
  | done a => exact hf a hp
  | fail e => exact hp
  | note e next ih => exact ih () hp
  | ask q next ih => exact ⟨hp.1, fun a ha => ih a (hp.2 a ha)⟩

/-- What follows from a property of the values is guaranteed with it. -/
theorem Guarantees.imp {p : Sampler α} (hp : p.Guarantees Q E) {R : α → Prop}
    (hR : ∀ a, Q a → R a) : p.Guarantees R E := by
  induction p with
  | done a => exact hR a hp
  | fail e => exact hp
  | note e next ih => exact ih () hp
  | ask q next ih => exact ⟨hp.1, fun a ha => ih a (hp.2 a ha)⟩

/-- A run with a source that gives integers within bounds ends as its sampler guarantees. -/
theorem Guarantees.run {p : Sampler α} (hp : p.Guarantees Q E) {σ : Type} {src : Source σ}
    (hsrc : src.KeepsIntegers) (s : σ) :
    (∃ a, (p.run src s).result = .ok a ∧ Q a) ∨ ∃ e, (p.run src s).result = .error e ∧ E e := by
  induction p generalizing s with
  | done a => exact .inl ⟨a, rfl, hp⟩
  | fail e => exact .inr ⟨e, rfl, hp⟩
  | note e next ih =>
    rw [run_note]
    exact ih () hp s
  | ask q next ih =>
    rw [run_ask]
    exact ih _ (hp.2 _ (hsrc q s)) _

/-- A choice of one of two sides guarantees nothing about it. -/
theorem guarantees_boolean : boolean.Guarantees (fun _ => True) E := ⟨trivial, fun _ _ => trivial⟩

/-- A choice of a character guarantees nothing about it. -/
theorem guarantees_character : character.Guarantees (fun _ => True) E :=
  ⟨trivial, fun _ _ => trivial⟩

/-- A choice of an integer guarantees that it is within bounds, if these are in order. -/
theorem guarantees_integer {least most : UInt32} (h : least ≤ most) :
    (integer least most).Guarantees (fun n => least ≤ n ∧ n ≤ most) E :=
  ⟨h, fun _ hn => hn h⟩

/-- A word that is at most the last index is an index. -/
theorem toNat_lt_of_le_last {n : Nat} (h0 : 0 < n) (hn : n ≤ 0xFFFFFFFF) {i : UInt32}
    (hi : i ≤ UInt32.ofNat (n - 1)) : i.toNat < n := by
  have hlast : (UInt32.ofNat (n - 1)).toNat = n - 1 := toNat_ofNat_word (by omega)
  have hle := UInt32.le_iff_toNat_le.mp hi
  omega

/-- Bounds of a count keep their order as words. -/
theorem ofNat_toNat_le {least most : Int} (hle : least ≤ most) (hmost : most ≤ 0xFFFFFFFF) :
    UInt32.ofNat least.toNat ≤ UInt32.ofNat most.toNat := by
  have hl : (UInt32.ofNat least.toNat).toNat = least.toNat := toNat_ofNat_word (by omega)
  have hm : (UInt32.ofNat most.toNat).toNat = most.toNat := toNat_ofNat_word (by omega)
  rw [UInt32.le_iff_toNat_le]
  omega

/-- A choice of an index guarantees one, if there are some and not too many. -/
theorem guarantees_index {n : Nat} (h0 : 0 < n) (hn : n ≤ 0xFFFFFFFF) :
    (index n).Guarantees (fun i? => ∃ i < n, i? = some i) E := by
  unfold index
  rw [if_pos ⟨h0, hn⟩]
  refine (guarantees_integer UInt32.zero_le).bind fun i hi => ?_
  exact ⟨i.toNat, toNat_lt_of_le_last h0 hn hi.2, rfl⟩

/-- A choice from a pool guarantees a character of it, if there are some and not too many. -/
theorem guarantees_pickChar {offset : UInt64} {pool : List Char} (h0 : pool ≠ [])
    (hpool : pool.length ≤ 0xFFFFFFFF) : (pickChar offset pool).Guarantees (· ∈ pool) E := by
  have hpick : (pick pool).Guarantees (fun c? => ∃ c ∈ pool, c? = some c) E := by
    refine (guarantees_index (List.length_pos_iff.mpr h0) hpool).bind fun i? hi => ?_
    obtain ⟨i, hlt, rfl⟩ := hi
    exact ⟨pool[i], List.getElem_mem hlt, List.getElem?_eq_getElem hlt⟩
  refine hpick.bind fun c? hc => ?_
  obtain ⟨c, hc, rfl⟩ := hc
  exact hc

/-- Where the surrogates lie between two characters, they can be left out of the interval between
them: the last is not less than their number, and does not come before the first without them. -/
theorem surrogates_between {first last : Char}
    (h : ¬ (lastSurrogate < first.val ∨ last.val < firstSurrogate)) :
    surrogateCount ≤ last.val ∧ (last.val - surrogateCount).toNat = last.val.toNat - 0x800 ∧
      first.val ≤ last.val - surrogateCount := by
  have hfirst : first.val.toNat.isValidChar := first.valid
  have hlast : last.val.toNat.isValidChar := last.valid
  simp only [Nat.isValidChar] at hfirst hlast
  simp only [UInt32.lt_iff_toNat_lt, show lastSurrogate.toNat = 0xDFFF from rfl,
    show firstSurrogate.toNat = 0xD800 from rfl] at h
  have hcount : surrogateCount.toNat = 0x800 := rfl
  have hle : surrogateCount ≤ last.val := by
    rw [UInt32.le_iff_toNat_le]
    omega
  have hsub : (last.val - surrogateCount).toNat = last.val.toNat - 0x800 := by
    rw [UInt32.toNat_sub_of_le _ _ hle, hcount]
  refine ⟨hle, hsub, ?_⟩
  rw [UInt32.le_iff_toNat_le, hsub]
  omega

/-- An answer that is at most a character without the surrogates stays a word when they are put
back. -/
theorem toNat_add_surrogateCount {last : Char} {v : UInt32}
    (h : v.toNat ≤ last.val.toNat - 0x800) :
    v.toNat + 0x800 ≤ 0xFFFFFFFF ∧ (v + surrogateCount).toNat = v.toNat + 0x800 := by
  have hlast : last.val.toNat.isValidChar := last.valid
  simp only [Nat.isValidChar] at hlast
  have hcount : surrogateCount.toNat = 0x800 := rfl
  have hword : v.toNat + 0x800 ≤ 0xFFFFFFFF := by omega
  refine ⟨hword, ?_⟩
  rw [UInt32.toNat_add, hcount]
  omega

/-- A choice of a code point between two characters in order guarantees that of a character. -/
theorem guarantees_between {first last : Char} (h : first ≤ last) :
    (between first last).Guarantees (fun v => v.isValidChar) E := by
  have hfirst : first.val.toNat.isValidChar := first.valid
  have hlast : last.val.toNat.isValidChar := last.valid
  simp only [Nat.isValidChar] at hfirst hlast
  unfold between
  split
  · next hside =>
    -- Both ends lie on the same side of the surrogates, and so does what lies between them.
    refine (guarantees_integer h).imp fun v hv => ?_
    simp only [UInt32.le_iff_toNat_le, UInt32.lt_iff_toNat_lt, UInt32.isValidChar, Nat.isValidChar,
      show lastSurrogate.toNat = 0xDFFF from rfl,
      show firstSurrogate.toNat = 0xD800 from rfl] at hv hside ⊢
    omega
  · next hside =>
    obtain ⟨-, hsub, hle⟩ := surrogates_between hside
    refine (guarantees_integer hle).bind fun v hv => ?_
    simp only [UInt32.le_iff_toNat_le, hsub] at hv
    obtain ⟨-, hadd⟩ := toNat_add_surrogateCount hv.2
    simp only [guarantees_pure, UInt32.le_iff_toNat_le, show firstSurrogate.toNat = 0xD800 from rfl]
    split
    · simp only [UInt32.isValidChar, Nat.isValidChar, hadd]
      omega
    · simp only [UInt32.isValidChar, Nat.isValidChar]
      omega

end Sampler

end PatternSampler
