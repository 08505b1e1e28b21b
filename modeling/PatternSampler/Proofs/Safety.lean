import Mathlib.Data.List.Nodup
import PatternSampler.Pattern.Build
import PatternSampler.Proofs.Checked
import PatternSampler.Proofs.Guarantees
import PatternSampler.Proofs.Places

/-!
# Samples are safe

`Meets` relates a checked computation to the plain one: they go through the same choices and events
to the same value or error, and no `require` fails, as long as integers are answered within their
bounds. `meets_emit` shows it of the two interpreters, with an invariant: the groups that have been
entered are distinct capturing groups of the pattern, and a page does not get shorter. So a run with
checks is a run without them (`run_checked`), for every pattern whose groups can be numbered.
-/

namespace PatternSampler

/-- A checked computation goes through the same choices and events as a sampler, without a fault and
to the same end, as long as integers are answered within their bounds. These are in order, and the
value has a property. -/
inductive Meets {α : Type} (Q : α → Prop) : Checked α → Sampler α → Prop where
  | done {a : α} : Q a → Meets Q (ExceptT.mk (.done (.ok a))) (.done a)
  | fail (e : SampleError) : Meets Q (ExceptT.mk (.fail e)) (.fail e)
  | note {e : Event} {next : Unit → Sampler (Except Fault α)} {next' : Unit → Sampler α} :
    Meets Q (ExceptT.mk (next ())) (next' ()) → Meets Q (ExceptT.mk (.note e next)) (.note e next')
  | ask {q : Query} {next : q.Answer → Sampler (Except Fault α)} {next' : q.Answer → Sampler α} :
    q.Ordered → (∀ a, q.Keeps a → Meets Q (ExceptT.mk (next a)) (next' a)) →
      Meets Q (ExceptT.mk (.ask q next)) (.ask q next')

open Sampler

namespace Meets

variable {α β : Type} {Q : α → Prop} {R : β → Prop} {c : Checked α} {p : Sampler α}

/-- Two computations in a row meet what is required if the second does after every value of the
first. -/
theorem bind {f : α → Checked β} {f' : α → Sampler β} (h : Meets Q c p)
    (hf : ∀ a, Q a → Meets R (f a) (f' a)) : Meets R (c >>= f) (p >>= f') := by
  induction h with
  | done ha => exact hf _ ha
  | fail e => exact .fail e
  | note _ ih => exact .note ih
  | ask hq _ ih => exact .ask hq ih

/-- What follows from the property of the values is a property of them. -/
theorem imp (h : Meets Q c p) {R : α → Prop} (hR : ∀ a, Q a → R a) : Meets R c p := by
  induction h with
  | done ha => exact .done (hR _ ha)
  | fail e => exact .fail e
  | note _ ih => exact .note ih
  | ask hq _ ih => exact .ask hq ih

/-- A run with a source that gives integers within bounds is the same with and without checks, and
asks for integers between bounds that are in order. -/
theorem run (h : Meets Q c p) {σ : Type} {src : Source σ} (hsrc : src.KeepsIntegers) (s : σ) :
    (ExceptT.run c).run src s = (p.run src s).map .ok ∧
      ∀ call ∈ (p.run src s).calls, call.query.Ordered := by
  induction h generalizing s with
  | done => exact ⟨rfl, nofun⟩
  | fail => exact ⟨rfl, nofun⟩
  | @note e next next' _ ih =>
    -- An event is a step of both runs, and no call.
    obtain ⟨hrun, hcalls⟩ := ih s
    refine ⟨?_, by rw [run_note]; exact hcalls⟩
    have hnext : (next ()).run src s = ((next' ()).run src s).map .ok := hrun
    change (Sampler.note e next).run src s = _
    rw [run_note, run_note, hnext]
    rfl
  | @ask q next next' hq _ ih =>
    -- Both runs get the same answer, which keeps to its bounds, and go on from the same state.
    obtain ⟨hrun, hcalls⟩ := ih (src.answer q s).1 (hsrc q s) (src.answer q s).2
    have hnext : (next (src.answer q s).1).run src (src.answer q s).2 =
      ((next' (src.answer q s).1).run src (src.answer q s).2).map .ok := hrun
    refine ⟨?_, by rw [run_ask]; exact List.forall_mem_cons.mpr ⟨hq, hcalls⟩⟩
    change (Sampler.ask q next).run src s = _
    rw [run_ask, run_ask]
    dsimp only
    rw [hnext]
    rfl

/-- What a sampler guarantees, it does without any checks. -/
theorem lift (h : p.Guarantees Q fun _ => True) : Meets Q (liftM p) p := by
  induction p with
  | done a => exact .done h
  | fail e => exact .fail e
  | note e next ih => exact .note (ih () h)
  | ask q next ih => exact .ask h.1 fun a ha => ih a (h.2 a ha)

/-- Something is said before what is met after it. -/
theorem tell {e : Event} {f : Unit → Checked α} {p : Sampler α} (h : Meets Q (f ()) p) :
    Meets Q ((liftM (Sampler.tell e) : Checked Unit) >>= f) (.note e fun _ => p) := .note h

/-- What is required may be left out if it is true. -/
theorem require {fact : Prop} [Decidable fact] (h : fact) {fault : Fault} {f : Unit → Checked α}
    {p : Sampler α} (hf : Meets Q (f ()) p) : Meets Q (Checked.require fact fault >>= f) p := by
  unfold Checked.require
  rw [if_pos h, pure_bind]
  exact hf

end Meets

namespace Checked

/-- An integer between bounds in order is within them. -/
theorem meets_integer {least most : UInt32} (h : least ≤ most) :
    Meets (fun n => least ≤ n ∧ n ≤ most) (integer least most) (Sampler.integer least most) := by
  unfold integer
  exact .require h (.lift (guarantees_integer h))

/-- An index that is found is one. -/
theorem meets_index (n : Nat) :
    Meets (fun i? => ∀ i, i? = some i → i < n) (index n) (Sampler.index n) := by
  unfold index Sampler.index
  split
  · next h =>
    refine .require (Nat.le_trans (Nat.sub_le n 1) h.2) ?_
    refine (meets_integer UInt32.zero_le).bind fun i hi => ?_
    have hlt : i.toNat < n := toNat_lt_of_le_last h.1 h.2 hi.2
    exact .require hlt (.done fun j hj => Option.some.inj hj ▸ hlt)
  · exact .done nofun

/-- There is an element at every index that is found. -/
theorem meets_pick {γ : Type} (as : List γ) :
    Meets (fun _ => True) (pick as) (Sampler.pick as) := by
  unfold pick Sampler.pick
  refine (meets_index as.length).bind fun i? hi => ?_
  cases i? with
  | none => exact .done trivial
  | some i =>
    have hlt : i < as.length := hi i rfl
    simp only [Option.bind_some, List.getElem?_eq_getElem hlt]
    exact .done trivial

/-- A character of a pool is found without a fault. -/
theorem meets_pickChar (offset : UInt64) (pool : List Char) :
    Meets (fun _ => True) (pickChar offset pool) (Sampler.pickChar offset pool) := by
  unfold pickChar Sampler.pickChar
  refine (meets_pick pool).bind fun c? _ => ?_
  cases c? with
  | none => exact .fail _
  | some c => exact .done trivial

/-- The bounds of a count that is asked for are words. -/
theorem meets_countWithin (offset : UInt64) {least : Int} (h : 0 ≤ least) (most : Int) :
    Meets (fun _ => True) (countWithin offset least most)
      (Sampler.countWithin offset least most) := by
  unfold countWithin Sampler.countWithin
  split
  · next hb =>
    refine .require ⟨h, Int.le_trans hb.1 hb.2, Int.le_trans h hb.1, hb.2⟩ ?_
    exact (meets_integer (ofNat_toNat_le hb.1 hb.2)).bind fun _ _ => .done trivial
  · exact .fail _

/-- The sum of a bound and an integer can be written as a bound where it is made. -/
theorem meets_count (cfg : Config) (quantifier : Node) :
    Meets (fun _ => True) (count cfg quantifier) (Sampler.count cfg quantifier) := by
  cases quantifier with
  | quantifier mark bounds greedy =>
    have hleast : 0 ≤ max bounds.min.toInt 0 := Int.le_max_right _ _
    unfold count Sampler.count
    dsimp only
    cases bounds.max with
    | some most => exact meets_countWithin _ hleast _
    | none =>
      refine (meets_integer cfg.leastExtra_le_mostExtra).bind fun extra _ => ?_
      -- The sum is too large if the least count is, once the integer is taken off the limit.
      by_cases hlarge : maxBound < max bounds.min.toInt 0 + extra.toNat
      · rw [if_pos hlarge, if_pos (Int.sub_lt_iff.mpr hlarge)]
        exact .fail _
      · rw [if_neg hlarge, if_neg fun h => hlarge (Int.sub_lt_iff.mp h)]
        have hfits : minBound ≤ max bounds.min.toInt 0 + extra.toNat := by
          unfold minBound
          omega
        refine .require ⟨hfits, Int.not_lt.mp hlarge⟩ (.tell ?_)
        exact meets_countWithin _ hleast _
  | _ => exact .fail _

/-- The surrogates are left out and put back without running over. -/
theorem meets_between {first last : Char} (h : first ≤ last) :
    Meets (fun _ => True) (between first last) (Sampler.between first last) := by
  unfold between Sampler.between
  split
  · exact (meets_integer h).imp fun _ _ => trivial
  · next hside =>
    obtain ⟨hcount, hsub, hle⟩ := surrogates_between hside
    refine .require hcount ((meets_integer hle).bind fun v hv => ?_)
    have hv' := UInt32.le_iff_toNat_le.mp hv.2
    rw [hsub] at hv'
    obtain ⟨hword, -⟩ := toNat_add_surrogateCount hv'
    split
    · exact .require hword (.done trivial)
    · exact .done trivial

end Checked

/-- The groups that have been entered can be numbered: they are capturing groups of a tree, each of
them once, and the tree has few enough. -/
structure Captures.Numbered (root : Node) (c : Captures Path) : Prop where
  nodup : c.seen.Nodup
  places : c.seen ⊆ root.groupPlaces []
  few : (root.groupPlaces []).length < Numeral.max32

/-- A page comes after another one: nothing is taken away from what has been written, and the groups
that have been entered are those of a tree. -/
structure Page.After (root : Node) (p q : Page) : Prop where
  size_le : p.written.size ≤ q.written.size
  numbered : q.captures.Numbered root

namespace Captures

variable {root : Node} {c : Captures Path}

/-- No groups are groups of every tree. -/
theorem numbered_empty (h : (root.groupPlaces []).length < Numeral.max32) :
    ({ } : Captures Path).Numbered root := ⟨List.nodup_nil, List.nil_subset _, h⟩

/-- A text that is kept changes nothing about the groups. -/
theorem Numbered.keep (hc : c.Numbered root) (number : Nat) (text : String) :
    (c.keep number text).Numbered root := ⟨hc.nodup, hc.places, hc.few⟩

/-- A group that is entered for the first time is one more of them. -/
theorem Numbered.add (hc : c.Numbered root) {path : Path} {mark : Mark} {body : Node}
    (hroot : root.at? path = some (.group mark .capturing body)) (hnew : c.number? path = none) :
    (c.add path).Numbered root := by
  have hseen : path ∉ c.seen := List.idxOf?_eq_none_iff.mp (Option.map_eq_none_iff.mp hnew)
  have hplace : [path] ⊆ root.groupPlaces [] :=
    List.cons_subset.mpr ⟨Node.mem_groupPlaces hroot, List.nil_subset _⟩
  refine ⟨?_, List.append_subset.mpr ⟨hc.places, hplace⟩, hc.few⟩
  have hnodup := List.Nodup.concat hseen hc.nodup
  rwa [List.concat_eq_append] at hnodup

/-- Groups that can be numbered are few enough. -/
theorem Numbered.length_lt (hc : c.Numbered root) : c.seen.length < Numeral.max32 :=
  Nat.lt_of_le_of_lt (hc.nodup.length_le_of_subset hc.places) hc.few

end Captures

namespace Page

variable {root : Node} {p q r : Page}

/-- A page comes after itself. -/
theorem After.refl (hp : p.captures.Numbered root) : p.After root p := ⟨Nat.le_refl _, hp⟩

/-- A page that comes after a later page comes after the earlier one. -/
theorem After.trans (hpq : p.After root q) (hqr : q.After root r) : p.After root r :=
  ⟨Nat.le_trans hpq.size_le hqr.size_le, hqr.numbered⟩

/-- A character is added behind what has been written. -/
theorem after_push (hp : p.captures.Numbered root) (x : Char) : p.After root (p.push x) :=
  ⟨by simp [push], hp⟩

/-- A text is added behind what has been written. -/
theorem after_append (hp : p.captures.Numbered root) (s : String) : p.After root (p.append s) :=
  ⟨by simp [append], hp⟩

end Page

namespace Checked

variable {root : Node} {p : Page}

/-- A leaf without content adds to its page without a fault. -/
theorem meets_token (offset : UInt64) (kind : Token) (hp : p.captures.Numbered root) :
    Meets (p.After root) (token offset kind p) (Sampler.token offset kind p) := by
  have hpool (pool : List Char) :
      Meets (p.After root) (do return p.push (← pickChar offset pool))
        (do return p.push (← Sampler.pickChar offset pool)) :=
    (meets_pickChar offset pool).bind fun x _ => .done (Page.after_push hp x)
  cases kind with
  | anyCharacter =>
    exact (Meets.lift guarantees_character).bind fun x _ => .done (Page.after_push hp x)
  | lineFeed => exact .done (Page.after_push hp '\n')
  | digit | nonDigit | whiteSpace | nonWhiteSpace | word | nonWord => exact hpool _
  | _ => exact .done (.refl hp)

/-- There is a number left after the one of a group that is entered. -/
theorem meets_enter {path : Path} {mark : Mark} {body : Node}
    (hgroup : root.at? path = some (.group mark .capturing body)) {c : Captures Path}
    (hc : c.Numbered root) (offset : UInt64) :
    Meets (fun r => r.2.Numbered root) (enter path offset c) (Sampler.enter path offset c) := by
  unfold enter Sampler.enter
  cases hnew : c.number? path with
  | some number => exact .tell (.done hc)
  | none =>
    have hadd := hc.add hgroup hnew
    -- The number is the length of the list that the group is added to, the group included.
    have hnumber : c.nextNumber < Numeral.max32 := by
      have hlt := hadd.length_lt
      rwa [Captures.add, List.length_append] at hlt
    exact .require hnumber (.tell (.done hadd))

/-- A group is left with a text that is cut out of its page. -/
theorem meets_leave (path : Path) (number : Nat) {q : Page} (hq : p.After root q) :
    Meets (p.After root) (leave path number p.written.size q)
      (Sampler.leave path number p.written.size q) := by
  unfold leave
  refine .require hq.size_le ?_
  exact .tell (.done ⟨hq.size_le, hq.numbered.keep _ _⟩)

/-- An end of a range is read off a page of its own. -/
theorem meets_endpoint {write : Page → Checked Page} {write' : Page → Sampler Page}
    (hwrite : ∀ {p : Page}, p.captures.Numbered root → Meets (p.After root) (write p) (write' p))
    (offset : UInt64) {c : Captures Path} (hc : c.Numbered root) :
    Meets (fun r => r.2.Numbered root) (endpoint offset write c)
      (Sampler.endpoint offset write' c) := by
  unfold endpoint Sampler.endpoint
  refine Meets.bind (hwrite hc) fun q hq => ?_
  match q.written.toList with
  | [x] => exact .done hq.numbered
  | [] | _ :: _ :: _ => exact .fail _

/-- The ends of a range are in order. -/
theorem meets_ends {first last : Captures Path → Checked (Char × Captures Path)}
    {first' last' : Captures Path → Sampler (Char × Captures Path)}
    (hfirst : ∀ {c}, c.Numbered root → Meets (fun r => r.2.Numbered root) (first c) (first' c))
    (hlast : ∀ {c}, c.Numbered root → Meets (fun r => r.2.Numbered root) (last c) (last' c))
    (offset : UInt64) {c : Captures Path} (hc : c.Numbered root) :
    Meets (fun r => r.1 ≤ r.2.1 ∧ r.2.2.Numbered root) (ends offset first last c)
      (Sampler.ends offset first' last' c) := by
  unfold ends Sampler.ends
  refine (hfirst hc).bind fun r hr => (hlast hr).bind fun r' hr' => ?_
  dsimp only
  split
  · exact .fail _
  · next hle => exact .done ⟨Char.not_lt.mp hle, hr'⟩

/-- Steps in a row go on from page to page. -/
theorem meets_iterate {step : Page → Checked Page} {step' : Page → Sampler Page}
    (hstep : ∀ {p : Page}, p.captures.Numbered root → Meets (p.After root) (step p) (step' p))
    (n : Nat) (hp : p.captures.Numbered root) :
    Meets (p.After root) (iterate step n p) (Sampler.iterate step' n p) := by
  induction n generalizing p with
  | zero => exact .done (.refl hp)
  | succ n ih =>
    exact (hstep hp).bind fun q hq => (ih hq.numbered).imp fun _ hr => hq.trans hr

variable (cfg : Config)

mutual

/-- `emit` goes on as its checked version does. -/
theorem meets_emit (node : Node) (path : Path) (depth : Nat) (hroot : root.at? path = some node)
    {p : Page} (hp : p.captures.Numbered root) :
    Meets (p.After root) (emit cfg node path depth p)
      (PatternSampler.emit cfg node path depth p) := by
  have hchild (i : Nat) : root.at? (i :: path) = node.child? i := Node.at_child hroot i
  unfold emit PatternSampler.emit
  split
  · exact .fail _
  refine .tell ?_
  match node with
  | .alternate _ l r =>
    refine (Meets.lift guarantees_boolean).bind fun b _ => ?_
    cases b
    · exact meets_emit r _ _ (hchild 1) hp
    · exact meets_emit l _ _ (hchild 0) hp
  | .sequence _ body => exact meets_emitAll body _ _ _ (.of_at hroot fun _ => rfl) hp
  | .group mark .capturing body =>
    refine (meets_enter hroot hp mark.offset).bind fun r hr => ?_
    -- Entering writes nothing, so what the body adds starts where the group does.
    have hentered : { p with captures := r.2 }.captures.Numbered root := hr
    refine (meets_emit body _ _ (hchild 0) hentered).bind fun q hq => ?_
    exact meets_leave path r.1 ⟨hq.size_le, hq.numbered⟩
  | .group _ .plain body => exact meets_emit body _ _ (hchild 0) hp
  | .group _ .ahead body => exact meets_emit body _ _ (hchild 0) hp
  | .group _ .notAhead _ => exact .done (.refl hp)
  | .quantified _ body q =>
    refine (meets_count cfg q).bind fun n _ => ?_
    exact meets_iterate (fun hp => meets_emit body _ _ (hchild 0) hp) n hp
  | .quantifier .. => exact .done (.refl hp)
  | .charset mark body true =>
    have hstrike := meets_strike body path 0 (depth + 1) (.of_at hroot fun _ => rfl)
      Alphabet.printable hp
    refine hstrike.bind fun r hr => (meets_pickChar mark.offset r.1).bind fun x _ => ?_
    exact .done ⟨(Page.after_push hp x).size_le, hr⟩
  | .charset mark body false =>
    refine (meets_index body.length).bind fun i? hi => ?_
    cases i? with
    | none => exact .fail _
    | some i =>
      have hrow : Node.Row root body path 0 := .of_at hroot fun _ => rfl
      exact meets_emitNth mark.offset body path 0 i _ hrow (hi i rfl) hp
  | .range mark first last =>
    have hfirst {p : Page} (hp : p.captures.Numbered root) :=
      meets_emit first _ (depth + 1) (hchild 0) hp
    have hlast {p : Page} (hp : p.captures.Numbered root) :=
      meets_emit last _ (depth + 1) (hchild 1) hp
    have hends := meets_ends (meets_endpoint hfirst first.offset)
      (meets_endpoint hlast last.offset) mark.offset hp
    refine hends.bind fun r hr => (meets_between hr.1).bind fun value _ => ?_
    cases scalar mark.offset value with
    | error e => exact .fail _
    | ok x => exact .done ⟨(Page.after_push hp x).size_le, hr.2⟩
  | .literal mark x isEscaped =>
    cases isEscaped
    · exact .done (Page.after_append hp _)
    · exact .done (Page.after_push hp x)
  | .numeric mark form code =>
    dsimp only
    cases escaped mark.offset form code with
    | error e => exact .fail _
    | ok x => exact .done (Page.after_push hp x)
  | .backReference _ code => exact .tell (.done (Page.after_append hp _))
  | .control _ code =>
    dsimp only
    cases Alphabet.control? code with
    | none => exact .fail _
    | some x => exact .done (Page.after_push hp x)
  | .token mark kind => exact meets_token mark.offset kind hp
  | .unknown mark => exact .done (Page.after_append hp _)

/-- `emitAll` goes on as its checked version does. -/
theorem meets_emitAll (nodes : List Node) (path : Path) (place depth : Nat)
    (hrow : Node.Row root nodes path place) {p : Page} (hp : p.captures.Numbered root) :
    Meets (p.After root) (emitAll cfg nodes path place depth p)
      (PatternSampler.emitAll cfg nodes path place depth p) := by
  unfold emitAll PatternSampler.emitAll
  match nodes with
  | [] => exact .done (.refl hp)
  | n :: ns =>
    refine (meets_emit n _ depth hrow.head hp).bind fun q hq => ?_
    exact (meets_emitAll ns path _ depth hrow.tail hq.numbered).imp fun _ hr => hq.trans hr

/-- `emitNth` goes on as its checked version does, at an index of its list. -/
theorem meets_emitNth (offset : UInt64) (nodes : List Node) (path : Path) (place i depth : Nat)
    (hrow : Node.Row root nodes path place) (hi : i < nodes.length) {p : Page}
    (hp : p.captures.Numbered root) :
    Meets (p.After root) (emitNth cfg nodes path place i depth p)
      (PatternSampler.emitNth cfg offset nodes path place i depth p) := by
  unfold emitNth PatternSampler.emitNth
  match nodes, i with
  | [], _ => exact absurd hi (Nat.not_lt_zero _)
  | n :: _, 0 => exact meets_emit n _ depth hrow.head hp
  | _ :: ns, i + 1 =>
    exact meets_emitNth offset ns path _ i depth hrow.tail (Nat.lt_of_succ_lt_succ hi) hp

/-- `strike` goes on as its checked version does. -/
theorem meets_strike (entries : List Node) (path : Path) (place depth : Nat)
    (hrow : Node.Row root entries path place) (pool : List Char) {c : Captures Path}
    (hc : c.Numbered root) :
    Meets (fun r => r.2.Numbered root) (strike cfg entries path place depth pool c)
      (PatternSampler.strike cfg entries path place depth pool c) := by
  unfold strike PatternSampler.strike
  match entries with
  | [] => exact .done hc
  | entry :: rest =>
    have hrest (pool : List Char) {c : Captures Path} (hc : c.Numbered root) :=
      meets_strike rest path (place + 1) depth hrow.tail pool hc
    match entry with
    | .range mark first last =>
      have hchild := Node.at_child hrow.head
      have hfirst {p : Page} (hp : p.captures.Numbered root) :=
        meets_emit first _ depth (hchild 0) hp
      have hlast {p : Page} (hp : p.captures.Numbered root) :=
        meets_emit last _ depth (hchild 1) hp
      have hends := meets_ends (meets_endpoint hfirst first.offset)
        (meets_endpoint hlast last.offset) mark.offset hc
      exact .tell (hends.bind fun r hr => hrest _ hr.2)
    | .literal .. | .alternate .. | .sequence .. | .group .. | .quantified .. | .quantifier ..
    | .charset .. | .numeric .. | .backReference .. | .control .. | .token .. | .unknown .. =>
      exact hrest _ hc

end

end Checked

/-- For a pattern whose capturing groups can be numbered, a sample with checks is a sample without
them, whatever the choices are and whether it fails or not. So no check ever ends it with a fault,
and it asks for integers between bounds that are in order. -/
theorem run_checked {σ : Type} (src : Source σ) (hsrc : src.KeepsIntegers) (cfg : Config)
    (node : Node) (hgroups : (node.groupPlaces []).length < 0xFFFFFFFF) (s : σ) :
    (Checked.sample cfg node).run.run src s = ((sample cfg node).run src s).map .ok ∧
      ∀ call ∈ ((sample cfg node).run src s).calls, call.query.Ordered := by
  have hsample : Meets (fun _ => True) (Checked.sample cfg node) (sample cfg node) := by
    have hempty : ({ } : Page).captures.Numbered node := Captures.numbered_empty hgroups
    have hemit := Checked.meets_emit cfg node [] 0 rfl hempty
    exact hemit.bind fun _ _ => .tell (.done trivial)
  exact hsample.run hsrc s

/-- A character next to the surrogates in a group, once or more. -/
def Node.besideSurrogates : Node :=
  repeated (capture (span '\uD7FF' '\uE000')) (times 1 none)

/-- Where the greatest of everything is taken, the surrogates are put back in two rounds, and one is
added to the least number of rounds with the limits the wrong way round. -/
theorem run_checked_besideSurrogates :
    let cfg : Config := { extraFrom := 1, extraTo := 0 }
    let o := (sample cfg .besideSurrogates).run Source.highest ()
    Source.highest.KeepsIntegers ∧ (Node.besideSurrogates.groupPlaces []).length < 0xFFFFFFFF ∧
      o.result = .ok "\uE000\uE000" ∧
      (Checked.sample cfg .besideSurrogates).run.run Source.highest () = o.map .ok ∧
      ∀ call ∈ o.calls, call.query.Ordered := by
  intro cfg o
  have hsrc : Source.highest.KeepsIntegers := by
    intro q s
    cases q with
    | integer least most => exact fun h => ⟨h, UInt32.le_refl most⟩
    | boolean | character => trivial
  have hgroups : (Node.besideSurrogates.groupPlaces []).length < 0xFFFFFFFF := by decide
  exact ⟨hsrc, hgroups, rfl, run_checked Source.highest hsrc cfg .besideSurrogates hgroups ()⟩

-- The checks are made: a source that goes beyond the bounds ends a sample with a fault.
example :
    let src : Source Unit := { answer := fun
      | .boolean, s => (true, s)
      | .integer _ most, s => (most + 1, s)
      | .character, s => (' ', s) }
    let digit := Node.spelled (.token { } .digit)
    ((Checked.sample { } digit).run.run src ()).result = .ok (.error .missing) := rfl

end PatternSampler
