import PatternSampler.Proofs.Failures
import PatternSampler.Proofs.Spans

/-!
# What an inverted set leaves

An inverted set goes through its entries one by one, and strikes characters out of a pool that gets
smaller on the way. `rangeEnds` is what it asks for meanwhile: the ends of the ranges among the
entries, one after the other, with what is captured. `leftOver` is what is left in the end, as one
filter of the printable characters. `strike_eq_filter` shows that the two together are the walk.

So the choice of an inverted set (`pickOutside`) evaluates the ends of its ranges and makes one call
more, unless nothing is left (`run_pickOutside`). Where the ends are fixed, what is left depends on
nothing but which entries there are, not on their order or number.
-/

namespace PatternSampler

/-- The ends of the ranges among some entries, evaluated one after the other. -/
def rangeEnds (cfg : Config) (entries : List Node) (path : Path) (place depth : Nat)
    (captures : Captures Path) : Sampler (List (Char × Char) × Captures Path) :=
  match entries with
  | [] => pure ([], captures)
  | .range m first last :: rest =>
    .note (.visit (place :: path)) fun _ => do
      let (a, b, captures) ← Sampler.ends m.offset
        (Sampler.endpoint first.offset (emit cfg first (0 :: place :: path) depth))
        (Sampler.endpoint last.offset (emit cfg last (1 :: place :: path) depth)) captures
      let (ranges, captures) ← rangeEnds cfg rest path (place + 1) depth captures
      pure ((a, b) :: ranges, captures)
  | _ :: rest => rangeEnds cfg rest path (place + 1) depth captures

/-- Whether an entry strikes out a character by itself, without the ends of ranges: a literal its
own character, and any other entry the class that its text spells. -/
def Node.strikesOut : Node → Char → Bool
  | .literal _ a _, x => x == a
  | entry, x => (Alphabet.Shorthand.ofText? entry.text).any fun shorthand => x ∈ shorthand.members

/-- Whether a character is struck out by none of some entries, and lies in none of some ranges. -/
def isKept (entries : List Node) (ranges : List (Char × Char)) (x : Char) : Bool :=
  entries.all (fun entry => !entry.strikesOut x) && ranges.all fun r => ¬(r.1 ≤ x ∧ x ≤ r.2)

/-- The printable characters, in their order, that some entries leave if their ranges have the given
ends. -/
def leftOver (entries : List Node) (ranges : List (Char × Char)) : List Char :=
  Alphabet.printable.filter (isKept entries ranges)

/-- A class is struck out of a pool by a filter. -/
theorem withoutShorthand_eq_filter (text : String) (pool : List Char) :
    withoutShorthand text pool =
      pool.filter fun x =>
        !(Alphabet.Shorthand.ofText? text).any fun shorthand => x ∈ shorthand.members := by
  unfold withoutShorthand
  cases Alphabet.Shorthand.ofText? text with
  | none => simp
  | some shorthand => simp

/-- What the first of some entries leaves is filtered by the others. -/
theorem filter_isKept_cons (entry : Node) (rest : List Node) (ranges : List (Char × Char))
    (pool : List Char) :
    (pool.filter fun x => !entry.strikesOut x).filter (isKept rest ranges) =
      pool.filter (isKept (entry :: rest) ranges) := by
  rw [List.filter_filter]
  refine List.filter_congr fun x _ => ?_
  simp only [isKept, List.all_cons]
  ac_rfl

/-- What lies outside the first of some ranges is filtered by the others. -/
theorem filter_isKept_range (r : Char × Char) (entries : List Node) (ranges : List (Char × Char))
    (pool : List Char) :
    (pool.filter fun x => ¬(r.1 ≤ x ∧ x ≤ r.2)).filter (isKept entries ranges) =
      pool.filter (isKept entries (r :: ranges)) := by
  rw [List.filter_filter]
  refine List.filter_congr fun x _ => ?_
  simp only [isKept, List.all_cons]
  ac_rfl

/-- The walk through the entries of an inverted set asks for the ends of the ranges, and leaves of a
pool what is struck out by none of the entries and lies in none of the ranges. -/
theorem strike_eq_filter (cfg : Config) (entries : List Node) (path : Path) (place depth : Nat)
    (pool : List Char) (captures : Captures Path) :
    strike cfg entries path place depth pool captures =
      (fun r => (pool.filter (isKept entries r.1), r.2)) <$>
        rangeEnds cfg entries path place depth captures := by
  induction entries generalizing place pool captures with
  | nil =>
    have hall : isKept [] [] = fun _ => true := rfl
    unfold strike rangeEnds
    rw [map_pure, hall, List.filter_true]
  | cons entry rest ih =>
    -- An entry that is no range leaves a filtered pool to the others, and asks for nothing.
    have hleave (pool' : List Char) (hpool : pool' = pool.filter fun x => !entry.strikesOut x) :
        strike cfg rest path (place + 1) depth pool' captures =
          (fun r => (pool.filter (isKept (entry :: rest) r.1), r.2)) <$>
            rangeEnds cfg rest path (place + 1) depth captures := by
      simp only [ih, hpool, filter_isKept_cons]
    unfold strike rangeEnds
    match entry, hleave with
    | .literal m a e, hleave =>
      refine hleave _ (List.filter_congr fun x _ => ?_)
      rw [Node.strikesOut, beq_eq_decide, decide_not]
    | .range m first last, _ =>
      dsimp only
      rw [Sampler.map_note]
      refine congrArg _ (funext fun _ => ?_)
      rw [map_bind]
      refine bind_congr fun r => ?_
      -- The class that the text of a range spells is struck out after the range itself.
      have hpool (ranges : List (Char × Char)) :
          (withoutShorthand m.text (pool.filter fun x => ¬(r.1 ≤ x ∧ x ≤ r.2.1))).filter
              (isKept rest ranges) =
            pool.filter (isKept (.range m first last :: rest) ((r.1, r.2.1) :: ranges)) := by
        rw [withoutShorthand_eq_filter, ← filter_isKept_range]
        exact filter_isKept_cons (.range m first last) rest ranges _
      simp only [ih, hpool, bind_pure_comp, Functor.map_map]
    | .alternate .., hleave | .sequence .., hleave | .group .., hleave | .quantified .., hleave
    | .quantifier .., hleave | .charset .., hleave | .numeric .., hleave
    | .backReference .., hleave | .control .., hleave | .token .., hleave | .unknown .., hleave =>
      exact hleave _ (withoutShorthand_eq_filter _ pool)

/-- The choice that an inverted set makes: of the characters that its entries leave, one is picked.
What the ends of the ranges capture is kept. -/
def pickOutside (cfg : Config) (offset : UInt64) (entries : List Node) (path : Path) (depth : Nat)
    (captures : Captures Path) : Sampler (Char × Captures Path) := do
  let (pool, captures) ← strike cfg entries path 0 depth Alphabet.printable captures
  let c ← Sampler.pickChar offset pool
  pure (c, captures)

/-- An inverted set that is not too deep adds the character of its choice. -/
theorem emit_inverted {cfg : Config} (mark : Mark) (entries : List Node) (path : Path) {depth : Nat}
    (hdepth : depth < cfg.maxDepth) (p : Page) :
    emit cfg (.charset mark entries true) path depth p =
      .note (.visit path) fun _ =>
        (fun r => { p with captures := r.2 }.push r.1) <$>
          pickOutside cfg mark.offset entries path (depth + 1) p.captures := by
  unfold emit pickOutside
  rw [if_neg (Nat.not_le.mpr hdepth)]
  simp only [map_bind, map_pure]

namespace Sampler

variable {σ : Type}

/-- A choice from an empty pool fails without a call. -/
theorem run_pickChar_nil (src : Source σ) (offset : UInt64) (s : σ) :
    (pickChar offset []).run src s = ⟨.error (.exhaustedPool offset), [], s⟩ := rfl

/-- A choice from a pool is one call for an index, and gives the character there. -/
theorem run_pickChar (src : Source σ) (offset : UInt64) {pool : List Char} (h0 : pool ≠ [])
    (hlength : pool.length ≤ 0xFFFFFFFF) (s : σ) :
    let q := Query.integer 0 (UInt32.ofNat (pool.length - 1))
    let i := (src.answer q s).1
    (pickChar offset pool).run src s =
      ⟨match pool[i.toNat]? with
        | some c => .ok c
        | none => .error (.exhaustedPool offset), [.call ⟨q, i⟩], (src.answer q s).2⟩ := by
  intro q i
  have hindex : index pool.length =
      (fun i => some i.toNat) <$> integer 0 (UInt32.ofNat (pool.length - 1)) := by
    unfold index
    rw [if_pos ⟨List.length_pos_iff.mpr h0, hlength⟩, bind_pure_comp]
  rw [pickChar, pick, hindex, bind_assoc, bind_map_left, run_bind, run_integer, Outcome.andThen]
  simp only [pure_bind, Option.bind_some]
  cases hc : pool[i.toNat]? with
  | none => rfl
  | some c => rfl

end Sampler

/-- What is left of the printable characters is not too long to pick from. -/
theorem length_leftOver_le (entries : List Node) (ranges : List (Char × Char)) :
    (leftOver entries ranges).length ≤ 0xFFFFFFFF := by
  have hprintable : Alphabet.printable.length ≤ 0xFFFFFFFF := by decide
  exact Nat.le_trans (List.length_filter_le _ _) hprintable

/-- Only literals have the tag of literals. -/
theorem Node.exists_literal_of_tag {n : Node} (h : n.tag = .literal) :
    ∃ mark a isEscaped, n = .literal mark a isEscaped := by
  cases n with
  | literal mark a isEscaped => exact ⟨mark, a, isEscaped, rfl⟩
  | _ => cases h

/-- An entry that is no literal strikes out the class that its text spells. -/
theorem strikesOut_iff_spelled {entry : Node} (h : entry.tag ≠ .literal) {x : Char} :
    entry.strikesOut x = true ↔ Alphabet.Spelled entry.text x := by
  have hspelled : ((Alphabet.Shorthand.ofText? entry.text).any fun shorthand =>
      x ∈ shorthand.members) = true ↔ Alphabet.Spelled entry.text x := by
    simp only [Option.any_eq_true, decide_eq_true_eq, Alphabet.Spelled]
  unfold Node.strikesOut
  split
  · exact absurd rfl h
  · exact hspelled

/-- The characters that some entries and ranges leave are the printable ones that are no literal
among the entries, in no class that another entry spells, and in none of the ranges. -/
theorem mem_leftOver {entries : List Node} {ranges : List (Char × Char)} {x : Char} :
    x ∈ leftOver entries ranges ↔
      (0x20 ≤ x.toNat ∧ x.toNat ≤ 0x7E) ∧
        (∀ mark a isEscaped, .literal mark a isEscaped ∈ entries → x ≠ a) ∧
        (∀ entry ∈ entries, entry.tag ≠ .literal → ¬ Alphabet.Spelled entry.text x) ∧
        ∀ r ∈ ranges, ¬(r.1 ≤ x ∧ x ≤ r.2) := by
  have hkept : isKept entries ranges x = true ↔
      (∀ entry ∈ entries, ¬ entry.strikesOut x = true) ∧
        ∀ r ∈ ranges, ¬(r.1 ≤ x ∧ x ≤ r.2) := by
    simp only [isKept, Bool.and_eq_true, List.all_eq_true, Bool.not_eq_true', Bool.not_eq_true,
      decide_eq_true_eq]
  rw [leftOver, List.mem_filter, Alphabet.mem_printable, hkept, and_congr_right_iff,
    ← and_assoc, and_congr_left_iff]
  intro _ _
  constructor
  · intro h
    refine ⟨fun mark a isEscaped hmem heq => ?_, fun entry hmem htag hspelled => ?_⟩
    · exact h _ hmem (beq_iff_eq.mpr heq)
    · exact h entry hmem ((strikesOut_iff_spelled htag).mpr hspelled)
  · rintro ⟨hliteral, hother⟩ entry hmem hstrikes
    by_cases htag : entry.tag = .literal
    · obtain ⟨mark, a, isEscaped, rfl⟩ := Node.exists_literal_of_tag htag
      exact hliteral mark a isEscaped hmem (beq_iff_eq.mp hstrikes)
    · exact hother entry hmem htag ((strikesOut_iff_spelled htag).mp hstrikes)

/-- What is left is in ascending order. -/
theorem pairwise_leftOver (entries : List Node) (ranges : List (Char × Char)) :
    (leftOver entries ranges).Pairwise (· < ·) := by
  have hprintable : Alphabet.printable.Pairwise (· < ·) := by decide
  exact hprintable.filter _

variable {σ : Type}

/-- The choice of an inverted set, once the ends of its ranges are evaluated: it fails without a
call if nothing is left, and else picks one of the characters that are left with one call. -/
theorem run_pickOutside (src : Source σ) (cfg : Config) (offset : UInt64) (entries : List Node)
    (path : Path) (depth : Nat) (c₀ : Captures Path) (s : σ) {ranges : List (Char × Char)}
    {captures : Captures Path} :
    let o := (rangeEnds cfg entries path 0 depth c₀).run src s
    let pool := leftOver entries ranges
    let q := Query.integer 0 (UInt32.ofNat (pool.length - 1))
    let i := (src.answer q o.state).1
    o.result = .ok (ranges, captures) →
      (pickOutside cfg offset entries path depth c₀).run src s =
        if pool = [] then ⟨.error (.exhaustedPool offset), o.steps, o.state⟩
        else
          ⟨match pool[i.toNat]? with
            | some c => .ok (c, captures)
            | none => .error (.exhaustedPool offset),
            o.steps ++ [.call ⟨q, i⟩], (src.answer q o.state).2⟩ := by
  intro o pool q i ho
  have hlength : pool.length ≤ 0xFFFFFFFF := length_leftOver_le entries ranges
  -- What comes after the ends is the choice of a character, with what is captured.
  have hrun : (pickOutside cfg offset entries path depth c₀).run src s =
      o.andThen fun r s => ((fun c => (c, r.2)) <$> Sampler.pickChar offset
        (leftOver entries r.1)).run src s := by
    rw [pickOutside, strike_eq_filter, bind_map_left, Sampler.run_bind]
    simp only [bind_pure_comp]
    rfl
  rw [hrun, Outcome.andThen, ho]
  dsimp only
  rw [Sampler.run_map]
  split
  · next h0 =>
    have hnil : leftOver entries ranges = [] := h0
    rw [hnil, Sampler.run_pickChar_nil, Outcome.map, List.append_nil]
    rfl
  · next h0 =>
    rw [Sampler.run_pickChar src offset h0 hlength, Outcome.map]
    cases pool[i.toNat]? with
    | none => rfl
    | some c => rfl

open Sampler

/-- Writing a character as a text is writing the character. -/
theorem Page.append_toString (p : Page) (c : Char) : p.append c.toString = p.push c := by
  rw [append_eq_extend, push_eq_extend]

/-- A fixed node that is not too deep adds its character, and asks for nothing. -/
theorem emit_fixed {cfg : Config} {n : Node} {a : Char} (hn : n.Fixed a) (path : Path) {depth : Nat}
    (hdepth : depth < cfg.maxDepth) (p : Page) :
    emit cfg n path depth p = .note (.visit path) fun _ => pure (p.push a) := by
  unfold emit
  rw [if_neg (Nat.not_le.mpr hdepth)]
  refine congrArg _ (funext fun _ => ?_)
  unfold Node.Fixed at hn
  split at hn
  · next mark x isEscaped =>
    cases isEscaped with
    | true =>
      have hx : x = a := toString_inj.mp hn
      rw [hx]
      rfl
    | false =>
      have htext : mark.text = a.toString := hn
      rw [← Page.append_toString, ← htext]
      rfl
  · next mark form code =>
    have hescaped : escaped mark.offset form code = .ok a := escaped_eq_ok_iff.mpr hn
    dsimp only
    rw [hescaped]
    rfl
  · next mark symbol =>
    have hcontrol : Alphabet.control? symbol = some a := Alphabet.control?_eq_some_iff.mpr hn
    dsimp only
    rw [hcontrol]
  · rw [hn]
    rfl
  · exact hn.elim

/-- Fixed ends of a range are visited, and nothing else happens if they are in order. -/
theorem ends_fixed {cfg : Config} {first last : Node} {a b : Char} (ha : first.Fixed a)
    (hb : last.Fixed b) (path path' : Path) {depth : Nat} (hdepth : depth < cfg.maxDepth)
    (offset i j : UInt64) (captures : Captures Path) :
    ends offset (endpoint i (emit cfg first path depth)) (endpoint j (emit cfg last path' depth))
        captures =
      .note (.visit path) fun _ => .note (.visit path') fun _ =>
        if b < a then .fail (.backwardsRange offset a b) else pure (a, b, captures) := by
  simp only [ends, endpoint, emit_fixed ha path hdepth, emit_fixed hb path' hdepth]
  rfl

namespace Node

/-- The ends of a range are fixed nodes that give one character each. -/
def EndsFixed : Node → Prop
  | .range _ first last => (∃ a, first.Fixed a) ∧ ∃ b, last.Fixed b
  | _ => True

/-- The ends of a range are fixed, in order, and not too deep. -/
def Spans (cfg : Config) (depth : Nat) : Node → Prop
  | .range _ first last => depth < cfg.maxDepth ∧ ∃ a b, first.Fixed a ∧ last.Fixed b ∧ a ≤ b
  | _ => True

end Node

/-- Where the ends of ranges are fixed and none of them fails, they are in order and not too
deep. -/
theorem spans_of_gives {src : Source σ} {cfg : Config} {entries : List Node}
    (hfixed : ∀ entry ∈ entries, entry.EndsFixed) {path : Path} {place depth : Nat}
    {captures : Captures Path} {s s' : σ} {r : List (Char × Char) × Captures Path}
    (h : (rangeEnds cfg entries path place depth captures).Gives src s r s') :
    ∀ entry ∈ entries, entry.Spans cfg depth := by
  induction entries generalizing place captures s s' r with
  | nil => exact nofun
  | cons entry rest ih =>
    obtain ⟨hentry, hrest⟩ := List.forall_mem_cons.mp hfixed
    unfold rangeEnds at h
    match entry, hentry, h with
    | .range m first last, ⟨⟨a, ha⟩, b, hb⟩, h =>
      obtain ⟨r₁, s₁, hends, h⟩ := gives_bind.mp (gives_note.mp h)
      obtain ⟨r₂, s₂, hothers, -⟩ := gives_bind.mp h
      have hdepth : depth < cfg.maxDepth := depth_lt_of_run_ends hends.1
      have hle : a ≤ b := by
        refine Char.not_lt.mp fun hlt => ?_
        rw [ends_fixed ha hb _ _ hdepth, if_pos hlt] at hends
        cases hends.1
      exact List.forall_mem_cons.mpr ⟨⟨hdepth, a, b, ha, hb, hle⟩, ih hrest hothers⟩
    | .literal .., _, h | .alternate .., _, h | .sequence .., _, h | .group .., _, h
    | .quantified .., _, h | .quantifier .., _, h | .charset .., _, h | .numeric .., _, h
    | .backReference .., _, h | .control .., _, h | .token .., _, h | .unknown .., _, h =>
      exact List.forall_mem_cons.mpr ⟨trivial, ih hrest h⟩

/-- Fixed ends that are in order and not too deep are visited, and nothing else happens. They are
the ends of the ranges among the entries. -/
theorem run_rangeEnds_fixed (cfg : Config) {entries : List Node} {depth : Nat}
    (h : ∀ entry ∈ entries, entry.Spans cfg depth) (path : Path) (place : Nat)
    (captures : Captures Path) :
    ∃ ranges visits,
      (∀ r : Char × Char, r ∈ ranges ↔
        ∃ m first last, .range m first last ∈ entries ∧ first.Fixed r.1 ∧ last.Fixed r.2) ∧
      ∀ {σ : Type} (src : Source σ) (s : σ),
        (rangeEnds cfg entries path place depth captures).run src s =
          ⟨.ok (ranges, captures), List.map Step.event visits, s⟩ := by
  induction entries generalizing place with
  | nil =>
    refine ⟨[], [], fun r => ?_, fun src s => rfl⟩
    simp only [List.not_mem_nil, false_and, exists_false]
  | cons entry rest ih =>
    obtain ⟨hentry, hrest⟩ := List.forall_mem_cons.mp h
    obtain ⟨ranges, visits, hranges, hrun⟩ := ih hrest (place + 1)
    unfold rangeEnds
    match entry, hentry with
    | .range m first last, ⟨hdepth, a, b, ha, hb, hle⟩ =>
      refine ⟨(a, b) :: ranges,
        .visit (place :: path) :: .visit (0 :: place :: path) :: .visit (1 :: place :: path) ::
          visits, fun r => ?_, fun src s => ?_⟩
      · rw [List.mem_cons, hranges]
        constructor
        · rintro (rfl | ⟨m', first', last', hmem, hends⟩)
          · exact ⟨m, first, last, List.mem_cons_self, ha, hb⟩
          · exact ⟨m', first', last', List.mem_cons_of_mem _ hmem, hends⟩
        · rintro ⟨m', first', last', hmem, ha', hb'⟩
          rcases List.mem_cons.mp hmem with heq | hmem
          · cases heq
            exact .inl (Prod.ext (ha'.unique ha) (hb'.unique hb))
          · exact .inr ⟨m', first', last', hmem, ha', hb'⟩
      · dsimp only
        rw [ends_fixed ha hb _ _ hdepth, if_neg (Char.not_lt.mpr hle)]
        simp only [note_bind, pure_bind, bind_pure_comp, run_note, run_map, hrun]
        rfl
    | .literal .., _ | .alternate .., _ | .sequence .., _ | .group .., _ | .quantified .., _
    | .quantifier .., _ | .charset .., _ | .numeric .., _ | .backReference .., _ | .control .., _
    | .token .., _ | .unknown .., _ =>
      refine ⟨ranges, visits, fun r => ?_, hrun⟩
      simpa using hranges r

/-- More entries and more ranges leave fewer characters. -/
theorem leftOver_sublist {entries entries' : List Node} {ranges ranges' : List (Char × Char)}
    (hentries : entries ⊆ entries') (hranges : ranges ⊆ ranges') :
    (leftOver entries' ranges').Sublist (leftOver entries ranges) := by
  refine List.monotone_filter_right _ fun x hx => ?_
  simp only [isKept, Bool.and_eq_true, List.all_eq_true] at hx ⊢
  exact ⟨fun entry hentry => hx.1 entry (hentries hentry), fun r hr => hx.2 r (hranges hr)⟩

/-- The ends of ranges that are fixed are those of more ranges if there are more entries. -/
theorem ranges_subset {entries entries' : List Node} {ranges ranges' : List (Char × Char)}
    (hentries : entries ⊆ entries')
    (hranges : ∀ r : Char × Char, r ∈ ranges ↔
      ∃ m first last, .range m first last ∈ entries ∧ first.Fixed r.1 ∧ last.Fixed r.2)
    (hranges' : ∀ r : Char × Char, r ∈ ranges' ↔
      ∃ m first last, .range m first last ∈ entries' ∧ first.Fixed r.1 ∧ last.Fixed r.2) :
    ranges ⊆ ranges' := by
  intro r hr
  obtain ⟨m, first, last, hmem, hends⟩ := (hranges r).mp hr
  exact (hranges' r).mpr ⟨m, first, last, hentries hmem, hends⟩

/-- Where the ends of ranges are fixed and none of them fails, more entries leave fewer
characters. -/
theorem leftOver_sublist_of_gives {src : Source σ} {cfg : Config} {entries entries' : List Node}
    (hsub : entries ⊆ entries') (hfixed : ∀ entry ∈ entries, entry.EndsFixed)
    (hfixed' : ∀ entry ∈ entries', entry.EndsFixed) {path : Path} {depth : Nat}
    {captures : Captures Path} {s t t' : σ} {r r' : List (Char × Char) × Captures Path}
    (h : (rangeEnds cfg entries path 0 depth captures).Gives src s r t)
    (h' : (rangeEnds cfg entries' path 0 depth captures).Gives src s r' t') :
    (leftOver entries' r'.1).Sublist (leftOver entries r.1) := by
  obtain ⟨rs, _, hrs, hrun⟩ := run_rangeEnds_fixed cfg (spans_of_gives hfixed h) path 0 captures
  obtain ⟨rs', _, hrs', hrun'⟩ :=
    run_rangeEnds_fixed cfg (spans_of_gives hfixed' h') path 0 captures
  -- What a run gives are the ends that are fixed.
  have hr : (rs, captures) = r := by
    have hresult := h.1
    rw [hrun] at hresult
    exact Except.ok.inj hresult
  have hr' : (rs', captures) = r' := by
    have hresult := h'.1
    rw [hrun'] at hresult
    exact Except.ok.inj hresult
  rw [← hr, ← hr']
  exact leftOver_sublist hsub (ranges_subset hsub hrs hrs')

/-- Two outcomes are the same but for their events. -/
def Outcome.SameCalls {α : Type} (o o' : Outcome σ α) : Prop :=
  o.result = o'.result ∧ o.calls = o'.calls ∧ o.state = o'.state

/-- Events before some steps are no calls. -/
theorem calls_append_events {α : Type} (result : Except SampleError α) (events : List Event)
    (steps : List Step) (s : σ) :
    (⟨result, events.map Step.event ++ steps, s⟩ : Outcome σ α).calls =
      (⟨result, steps, s⟩ : Outcome σ α).calls := by
  induction events with
  | nil => rfl
  | cons e rest ih => exact ih

/-- Where the ends of ranges are fixed, in order and not too deep, an inverted set chooses in the
same way for all lists of the same entries. -/
theorem sameCalls_pickOutside (src : Source σ) (cfg : Config) (offset : UInt64)
    {entries entries' : List Node} (hmem : ∀ entry, entry ∈ entries' ↔ entry ∈ entries)
    {depth : Nat} (hspans : ∀ entry ∈ entries, entry.Spans cfg depth) (path : Path)
    (captures : Captures Path) (s : σ) :
    ((pickOutside cfg offset entries' path depth captures).run src s).SameCalls
      ((pickOutside cfg offset entries path depth captures).run src s) := by
  have hspans' : ∀ entry ∈ entries', entry.Spans cfg depth :=
    fun entry h => hspans entry ((hmem entry).mp h)
  obtain ⟨ranges, visits, hranges, hrun⟩ := run_rangeEnds_fixed cfg hspans path 0 captures
  obtain ⟨ranges', visits', hranges', hrun'⟩ := run_rangeEnds_fixed cfg hspans' path 0 captures
  -- The same entries have the same ends, and so the same characters are left.
  have hsub : entries ⊆ entries' := fun entry h => (hmem entry).mpr h
  have hsub' : entries' ⊆ entries := fun entry h => (hmem entry).mp h
  have hpool : leftOver entries' ranges' = leftOver entries ranges :=
    (leftOver_sublist hsub (ranges_subset hsub hranges hranges')).antisymm
      (leftOver_sublist hsub' (ranges_subset hsub' hranges' hranges))
  have hresult := congrArg Outcome.result (hrun src s)
  have hresult' := congrArg Outcome.result (hrun' src s)
  rw [run_pickOutside src cfg offset entries path depth captures s hresult,
    run_pickOutside src cfg offset entries' path depth captures s hresult', hpool, hrun, hrun']
  split
  · refine ⟨rfl, ?_, rfl⟩
    rw [← List.append_nil (visits.map Step.event), ← List.append_nil (visits'.map Step.event),
      calls_append_events, calls_append_events]
  · refine ⟨rfl, ?_, rfl⟩
    rw [calls_append_events, calls_append_events]

/-- Outcomes that are the same but for their events give values and steps in the same way. -/
theorem Outcome.SameCalls.map {α β : Type} {o o' : Outcome σ α} (h : o.SameCalls o') (f : α → β)
    (e : Event) :
    ({ o.map f with steps := .event e :: o.steps } : Outcome σ β).SameCalls
      { o'.map f with steps := .event e :: o'.steps } :=
  ⟨congrArg (Except.map f) h.1, h.2.1, h.2.2⟩

/-- Where the ends of ranges are fixed, in order and not too deep, an inverted set gives the same
for all lists of the same entries. -/
theorem sameCalls_emit (src : Source σ) (cfg : Config) (mark : Mark) {entries entries' : List Node}
    (hmem : ∀ entry, entry ∈ entries' ↔ entry ∈ entries) {depth : Nat}
    (hspans : ∀ entry ∈ entries, entry.Spans cfg (depth + 1)) (path : Path) (p : Page) (s : σ) :
    ((emit cfg (.charset mark entries' true) path depth p).run src s).SameCalls
      ((emit cfg (.charset mark entries true) path depth p).run src s) := by
  by_cases hdepth : depth < cfg.maxDepth
  · have hpick := sameCalls_pickOutside src cfg mark.offset hmem hspans path p.captures s
    rw [emit_inverted mark entries' path hdepth, emit_inverted mark entries path hdepth, run_note,
      run_note, run_map, run_map]
    exact hpick.map _ (.visit path)
  · rw [emit_eq_tooDeep (Nat.not_lt.mp hdepth), emit_eq_tooDeep (Nat.not_lt.mp hdepth)]
    exact ⟨rfl, rfl, rfl⟩

/-- Let the ends of the ranges among the entries of an inverted set be evaluated. What is left are
the printable characters, in ascending order, without the literals, the ranges, and the classes
that the texts of other entries spell. If that is nothing, the set fails without a call more. Else
it picks one of these characters with one call for its index. Where the ends are fixed, nothing
changes if the entries are permuted or repeated, and more entries leave fewer characters. -/
theorem run_emit_inverted (src : Source σ) (cfg : Config) (mark : Mark) (entries : List Node)
    (path : Path) (depth : Nat) (p : Page) (s : σ) (ranges : List (Char × Char))
    (captures : Captures Path)
    (h : ((rangeEnds cfg entries path 0 (depth + 1) p.captures).run src s).result =
      .ok (ranges, captures)) :
    let o := (rangeEnds cfg entries path 0 (depth + 1) p.captures).run src s
    let pool := leftOver entries ranges
    let q := Query.integer 0 (UInt32.ofNat (pool.length - 1))
    let i := (src.answer q o.state).1
    let choice := (pickOutside cfg mark.offset entries path (depth + 1) p.captures).run src s
    ((∀ x : Char, x ∈ pool ↔
        (0x20 ≤ x.toNat ∧ x.toNat ≤ 0x7E) ∧
          (∀ m a isEscaped, .literal m a isEscaped ∈ entries → x ≠ a) ∧
          (∀ entry ∈ entries, entry.tag ≠ .literal → ¬ Alphabet.Spelled entry.text x) ∧
          ∀ r ∈ ranges, ¬(r.1 ≤ x ∧ x ≤ r.2)) ∧
      pool.Pairwise (· < ·)) ∧
    (pool = [] → choice = ⟨.error (.exhaustedPool mark.offset), o.steps, o.state⟩) ∧
    (pool ≠ [] → choice =
      ⟨match pool[i.toNat]? with
        | some c => .ok (c, captures)
        | none => .error (.exhaustedPool mark.offset),
        o.steps ++ [.call ⟨q, i⟩], (src.answer q o.state).2⟩) ∧
    (depth < cfg.maxDepth →
      (emit cfg (.charset mark entries true) path depth p).run src s =
        ⟨choice.result.map fun r => { p with captures := r.2 }.push r.1,
          .event (.visit path) :: choice.steps, choice.state⟩) ∧
    ((∀ entry ∈ entries, entry.EndsFixed) →
      (∀ entries' : List Node, (∀ entry, entry ∈ entries' ↔ entry ∈ entries) →
        ((emit cfg (.charset mark entries' true) path depth p).run src s).SameCalls
          ((emit cfg (.charset mark entries true) path depth p).run src s)) ∧
      ∀ entries' : List Node, entries ⊆ entries' → (∀ entry ∈ entries', entry.EndsFixed) →
        ∀ ranges' captures',
          ((rangeEnds cfg entries' path 0 (depth + 1) p.captures).run src s).result =
            .ok (ranges', captures') →
          (leftOver entries' ranges').Sublist pool) := by
  intro o pool q i choice
  have hchoice := run_pickOutside src cfg mark.offset entries path (depth + 1) p.captures s h
  refine ⟨⟨fun x => mem_leftOver, pairwise_leftOver entries ranges⟩, fun hnil => ?_,
    fun hsome => ?_, fun hdepth => ?_, fun hfixed => ⟨fun entries' hmem => ?_, ?_⟩⟩
  · exact hchoice.trans (if_pos hnil)
  · exact hchoice.trans (if_neg hsome)
  · rw [emit_inverted mark entries path hdepth, run_note, run_map]
    rfl
  · exact sameCalls_emit src cfg mark hmem (spans_of_gives hfixed ⟨h, rfl⟩) path p s
  · intro entries' hsub hfixed' ranges' captures' h'
    exact leftOver_sublist_of_gives hsub hfixed hfixed' ⟨h, rfl⟩ ⟨h', rfl⟩

/-- Without the characters up to the slash and without the digits, the colon is the first one that
is left. With the digits twice and before the range, the choice is the same. -/
theorem run_emit_inverted_afterDigits :
    let entries := [.span ' ' '/', .spelled (.token { } .digit)]
    let entries' := [.spelled (.token { } .digit), .span ' ' '/', .spelled (.token { } .digit)]
    let pool := leftOver entries [(' ', '/')]
    let run := fun entries =>
      (emit { } (.charset { } entries true) [] 0 { }).run Source.lowest ()
    pool.length = 69 ∧ (run entries).result = .ok (({ } : Page).push ':') ∧
      (run entries').SameCalls (run entries) := by
  intro entries entries' pool run
  have hpool : pool ≠ [] := by decide
  have hfixed : ∀ entry ∈ entries, entry.EndsFixed :=
    List.forall_mem_cons.mpr ⟨⟨⟨' ', rfl⟩, '/', rfl⟩, List.forall_mem_singleton.mpr trivial⟩
  obtain ⟨-, -, hchoice, hemit, hsame⟩ :=
    run_emit_inverted Source.lowest { } { } entries [] 0 { } () [(' ', '/')] { } rfl
  refine ⟨by decide, ?_, (hsame hfixed).1 entries' ?_⟩
  · have hrun := hemit (by decide)
    rw [hchoice hpool] at hrun
    exact congrArg Outcome.result hrun
  · intro entry
    simp only [entries, entries', List.mem_cons, List.not_mem_nil, or_false]
    tauto

end PatternSampler
