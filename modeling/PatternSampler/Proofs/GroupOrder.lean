import PatternSampler.Pattern.Build
import PatternSampler.Proofs.Draws
import PatternSampler.Proofs.Tours

/-!
# Groups in the order of their brackets

A group gets its number when it is first entered. Where no group lies below a node that may leave
out what is below it (`Node.GroupsCertain`), every group is entered whenever a sample is given, and
the order in which this happens is that of the opening brackets. So the numbers are known before
anything is sampled.

Each node makes a tour of its groups (`makesTour_evaluate`), by recursion on the pattern. The
numbers are then read off the tour of the whole pattern (`number_of_groupsCertain`).
-/

namespace PatternSampler

namespace Node

/-- A node may leave out what is below it: an alternation one of its branches, a set of characters
its entries, a negative lookahead what it looks for, and a repetition its body if it may be repeated
no times. -/
def maySkip : Node → Bool
  | .alternate .. | .charset .. | .group _ .notAhead _ => true
  | .quantified _ _ (.quantifier _ bounds _) => max bounds.min.toInt 0 = 0
  | _ => false

/-- No group lies below a node that may leave it out. -/
def GroupsCertain (root : Node) : Prop :=
  ∀ path n, root.at? path = some n → n.maySkip = true → n.groupPlaces path = []

/-- Whether no group lies below a node that may leave it out can be checked node by node. -/
theorem groupsCertain_iff (root : Node) :
    root.GroupsCertain ↔
      root.everywhere (fun n => !n.maySkip || (n.groupPlaces []).isEmpty) = true := by
  have hcheck (n : Node) (path : Path) : (n.maySkip = true → n.groupPlaces path = []) ↔
      (!n.maySkip || (n.groupPlaces []).isEmpty) = true := by
    rw [n.groupPlaces_eq_nil_iff path, Bool.or_eq_true, List.isEmpty_iff]
    cases n.maySkip <;> simp
  constructor
  · intro h
    exact everywhere_of_at (fun path n hn => (hcheck n path).mp (h path n hn)) root [] rfl
  · intro h path n hn
    exact (hcheck n path).mpr (everywhere_at h hn)

instance (root : Node) : Decidable root.GroupsCertain :=
  decidable_of_iff _ root.groupsCertain_iff.symm

end Node

section Walk

open Sampler

variable {σ μ : Type} {src : Source σ} {root : Node} (mem : Memory μ) (cfg : Config)

/-- The only character of a text has nothing to do with groups. -/
theorem Sampler.quiet_onlyChar (offset : UInt64) (r : String × μ) : (onlyChar offset r).Quiet := by
  obtain ⟨text, m⟩ := r
  dsimp only [onlyChar]
  split
  · trivial
  · trivial

/-- A count that a quantifier allows is not below its lower bound. -/
theorem least_le_of_counts {mark : Mark} {bounds : Bounds} {isGreedy : Bool} {n : Nat}
    (h : (Node.quantifier mark bounds isGreedy).Counts cfg n) : max bounds.min.toInt 0 ≤ n := by
  unfold Node.Counts at h
  dsimp only at h
  split at h
  · exact h.1
  · obtain ⟨extra, -, -, hle, -⟩ := h
    exact hle

mutual

/-- A node makes a tour of its groups. -/
theorem makesTour_evaluate (hsrc : src.InBounds) (hcertain : root.GroupsCertain) (node : Node)
    (path : Path) (depth : Nat) (hnode : root.at? path = some node) (m : μ) :
    (mem.evaluate cfg node path depth m).MakesTour src root (node.groupPlaces path)
      (path <:+ ·) := by
  have hchild (i : Nat) : root.at? (i :: path) = node.child? i := Node.at_child hnode i
  have hskip : node.maySkip = true → node.groupPlaces path = [] := hcertain path node hnode
  have hunder {i : Nat} (r : Path) (hr : (i :: path) <:+ r) : path <:+ r :=
    (List.suffix_cons i path).trans hr
  unfold Memory.evaluate
  split
  · exact fun s a h => nomatch h
  -- The visit of a back-reference goes with its text. Other visits have nothing to do with groups.
  by_cases href : ∃ mark code, node = .backReference mark code
  · obtain ⟨mark, code, rfl⟩ := href
    intro s a h
    exact .backReference (List.suffix_refl path) hnode _
  have hvisit : (Event.visit path).Quiet := trivial
  refine .note hvisit ?_
  match node with
  | .backReference mark code => exact absurd ⟨mark, code, rfl⟩ href
  | .alternate _ l r =>
    -- Neither branch has groups, so it does not matter which one is chosen.
    have hnone := hskip rfl
    obtain ⟨hl, hr⟩ := List.append_eq_nil_iff.mp hnone
    rw [hnone]
    refine .quiet_bind quiet_boolean fun _ b _ => ?_
    cases b
    · have hright := makesTour_evaluate hsrc hcertain r (1 :: path) (depth + 1) (hchild 1) m
      rw [hr] at hright
      exact hright.widen hunder
    · have hleft := makesTour_evaluate hsrc hcertain l (0 :: path) (depth + 1) (hchild 0) m
      rw [hl] at hleft
      exact hleft.widen hunder
  | .sequence _ body =>
    have hbody := makesTour_evaluateAll hsrc hcertain body path 0 (depth + 1)
      (.of_at hnode fun _ => rfl) m
    exact hbody.widen fun r ⟨i, _, hr⟩ => hunder r hr
  | .group mark .capturing body =>
    generalize mem.enter path m = entered
    obtain ⟨number, isNew, m⟩ := entered
    have hbody := makesTour_evaluate hsrc hcertain body (0 :: path) (depth + 1) (hchild 0) m
    exact hbody.captured (fun _ => body.suffix_of_mem_groupPlaces) mark.offset number isNew _
  | .group _ .plain body | .group _ .ahead body =>
    exact (makesTour_evaluate hsrc hcertain body (0 :: path) (depth + 1) (hchild 0) m).widen hunder
  | .group _ .notAhead _ =>
    rw [hskip rfl]
    exact makesTour_of_quiet trivial
  | .quantified quantifiedMark body q =>
    refine .quiet_bind (quiet_count cfg q) fun _ n hn => ?_
    have hcounts : q.Counts cfg n := mayGive_count.mp (mayGive_of_run hsrc hn)
    match q, hcounts with
    | .quantifier mark bounds isGreedy, hcounts =>
      cases n with
      | zero =>
        -- The body may be left out, so there are no groups in it.
        have hleast := least_le_of_counts cfg hcounts
        rw [hskip (decide_eq_true (by omega))]
        exact makesTour_of_quiet trivial
      | succ n =>
        -- Every round is a tour of the same groups. The quantifier has none of its own.
        have hbody (m : μ) :=
          (makesTour_evaluate hsrc hcertain body (0 :: path) (depth + 1) (hchild 0) m).widen hunder
        have hplaces : (Node.quantified quantifiedMark body
            (.quantifier mark bounds isGreedy)).groupPlaces path = body.groupPlaces (0 :: path) :=
          List.append_nil _
        rw [hplaces]
        exact .repeated hbody n m
  | .charset mark body true =>
    have hnone : Node.groupPlacesAll body path 0 = [] := hskip rfl
    rw [hskip rfl]
    have hspare := makesTour_spare hsrc hcertain body path 0 (depth + 1) (.of_at hnode fun _ => rfl)
      hnone Alphabet.printable m
    exact hspare.bind_quiet fun _ => (quiet_pickChar _ _).bind fun _ => trivial
  | .charset mark body false =>
    have hnone : Node.groupPlacesAll body path 0 = [] := hskip rfl
    rw [hskip rfl]
    refine .quiet_bind (quiet_index _) fun _ i _ => ?_
    cases i with
    | none => exact fun s a h => nomatch h
    | some i =>
      exact makesTour_evaluateNth hsrc hcertain body mark.offset path 0 i (depth + 1)
        (.of_at hnode fun _ => rfl) hnone m
  | .range mark first last =>
    have hfirst (m : μ) := (makesTour_evaluate hsrc hcertain first (0 :: path) (depth + 1)
      (hchild 0) m).bind_quiet (quiet_onlyChar first.offset)
    have hlast (m : μ) := (makesTour_evaluate hsrc hcertain last (1 :: path) (depth + 1)
      (hchild 1) m).bind_quiet (quiet_onlyChar last.offset)
    refine (MakesTour.ends hfirst hlast mark.offset m).bind_quiet fun r => ?_
    exact (quiet_between r.1 r.2.1).bind fun _ => (quiet_ofExcept _).bind fun _ => trivial
  | .numeric .. => exact makesTour_of_quiet ((quiet_ofExcept _).bind fun _ => trivial)
  | .control _ code =>
    dsimp only
    split
    · exact makesTour_of_quiet trivial
    · exact makesTour_of_quiet trivial
  | .token mark kind =>
    exact makesTour_of_quiet ((quiet_tokenText mark.offset kind).bind fun _ => trivial)
  | .quantifier .. | .literal .. | .unknown .. => exact makesTour_of_quiet trivial

/-- Nodes in a row make a tour of their groups. -/
theorem makesTour_evaluateAll (hsrc : src.InBounds) (hcertain : root.GroupsCertain)
    (nodes : List Node) (path : Path) (place depth : Nat) (hrow : Node.Row root nodes path place)
    (m : μ) :
    (mem.evaluateAll cfg nodes path place depth m).MakesTour src root
      (Node.groupPlacesAll nodes path place) fun r => ∃ i, place ≤ i ∧ (i :: path) <:+ r := by
  unfold Memory.evaluateAll
  match nodes with
  | [] => exact makesTour_of_quiet trivial
  | n :: ns =>
    have hn := makesTour_evaluate hsrc hcertain n (place :: path) depth hrow.head m
    have hall := hn.bind_sibling (fun _ => n.suffix_of_mem_groupPlaces)
      (fun r : String × μ =>
        (makesTour_evaluateAll hsrc hcertain ns path (place + 1) depth hrow.tail r.2).bind_quiet
          (f := fun t => pure (r.1 ++ t.1, t.2)) fun _ => trivial)
      fun _ => Node.exists_suffix_of_mem_groupPlacesAll ns
    refine hall.widen fun r hr => ?_
    rcases hr with hr | ⟨i, hle, hr⟩
    · exact ⟨place, Nat.le_refl _, hr⟩
    · exact ⟨i, Nat.le_of_succ_le hle, hr⟩

/-- One of some nodes without groups makes a tour without groups. -/
theorem makesTour_evaluateNth (hsrc : src.InBounds) (hcertain : root.GroupsCertain)
    (nodes : List Node) (offset : UInt64) (path : Path) (place i depth : Nat)
    (hrow : Node.Row root nodes path place) (hnone : Node.groupPlacesAll nodes path place = [])
    (m : μ) :
    (mem.evaluateNth cfg offset nodes path place i depth m).MakesTour src root [] (path <:+ ·) := by
  unfold Memory.evaluateNth
  match nodes, i with
  | [], _ => exact fun s a h => nomatch h
  | n :: _, 0 =>
    have hn := makesTour_evaluate hsrc hcertain n (place :: path) depth hrow.head m
    rw [(List.append_eq_nil_iff.mp hnone).1] at hn
    exact hn.widen fun r hr => (List.suffix_cons place path).trans hr
  | _ :: ns, i + 1 =>
    exact makesTour_evaluateNth hsrc hcertain ns offset path (place + 1) i depth hrow.tail
      (List.append_eq_nil_iff.mp hnone).2 m

/-- Entries without groups make a tour without groups, in the ends of a range. -/
theorem makesTour_spare (hsrc : src.InBounds) (hcertain : root.GroupsCertain)
    (entries : List Node) (path : Path) (place depth : Nat)
    (hrow : Node.Row root entries path place)
    (hnone : Node.groupPlacesAll entries path place = []) (pool : List Char) (m : μ) :
    (mem.spare cfg entries path place depth pool m).MakesTour src root [] (path <:+ ·) := by
  unfold Memory.spare
  match entries with
  | [] => exact makesTour_of_quiet trivial
  | entry :: rest =>
    obtain ⟨hentry, hothers⟩ := List.append_eq_nil_iff.mp hnone
    have hrest (pool : List Char) (m : μ) := makesTour_spare hsrc hcertain rest path (place + 1)
      depth hrow.tail hothers pool m
    match entry with
    | .range mark first last =>
      -- The range is visited itself, and its ends lie under it.
      have hchild := Node.at_child hrow.head
      have hfirst (m : μ) := (makesTour_evaluate hsrc hcertain first (0 :: place :: path) depth
        (hchild 0) m).bind_quiet (quiet_onlyChar first.offset)
      have hlast (m : μ) := (makesTour_evaluate hsrc hcertain last (1 :: place :: path) depth
        (hchild 1) m).bind_quiet (quiet_onlyChar last.offset)
      have hends := (MakesTour.ends hfirst hlast mark.offset m).widen
        fun r hr => (List.suffix_cons place path).trans hr
      have hvisit : (Event.visit (place :: path)).Quiet := trivial
      have hnone' : first.groupPlaces (0 :: place :: path) ++
          last.groupPlaces (1 :: place :: path) = [] := hentry
      rw [hnone'] at hends
      exact .note hvisit (hends.bind_again fun r => hrest _ r.2.2)
    | .literal .. | .alternate .. | .sequence .. | .group .. | .quantified .. | .quantifier ..
    | .charset .. | .numeric .. | .backReference .. | .control .. | .token .. | .unknown .. =>
      exact hrest _ m

end

end Walk

open Sampler

/-- A sample makes a tour of the whole pattern. -/
theorem makesTour_sample {σ : Type} {src : Source σ} (hsrc : src.InBounds) (cfg : Config)
    {root : Node} (hcertain : root.GroupsCertain) :
    (sample cfg root).MakesTour src root (root.groupPlaces []) ([] <:+ ·) := by
  rw [sample_eq_memory]
  have hroot := makesTour_evaluate Captures.memory cfg hsrc hcertain root [] 0 rfl { }
  exact hroot.bind_quiet fun _ => ⟨trivial, trivial⟩

/-- What a number recalls is what the group with this number among all groups of a sample gave
last, if that group has been left. -/
theorem History.getLast?_of_recalled {h h' : History} (hle : h <+: h') {i : Nat} {group : Path}
    (hi : h'.groups[i]? = some group) (hclosed : h.Closed group) {text : String}
    (htext : text = h.recalled (i + 1)) : (h.outputs group).getLast? = some text := by
  obtain ⟨later, hgroups⟩ := groups_isPrefix hle
  obtain ⟨j, hj⟩ := List.mem_iff_getElem?.mp hclosed.1
  have hlt : j < h.groups.length := (List.getElem?_eq_some_iff.mp hj).1
  -- A group has the same place among the first groups as among all of them.
  have hj' : h'.groups[j]? = some group := by rw [← hgroups, List.getElem?_append_left hlt, hj]
  have hlt' : j < h'.groups.length := (List.getElem?_eq_some_iff.mp hj').1
  have hij : j = i := (List.getElem?_inj hlt' h'.nodup_groups).mp (hj'.trans hi.symm)
  rw [htext, ← hij, recalled, hj, Option.bind_some, List.getLast?_eq_some_getLast hclosed.2,
    Option.getD_some]

/-- Where no group lies below a node that may leave it out, numbers are in the order of the opening
brackets. The list of all capturing groups of the pattern has each of them once, before those inside
it and those after its end. Whenever a sample is given, every one of them has been entered, and each
time under the number that tells its place in the list. A back-reference that comes after the end of
the group with its number adds what this group gave when it was last left. -/
theorem number_of_groupsCertain {σ : Type} (src : Source σ) (hsrc : src.InBounds) (cfg : Config)
    (root : Node) (hcertain : root.GroupsCertain) (s : σ) {sampled : String}
    (h : ((sample cfg root).run src s).result = .ok sampled) :
    let es := ((sample cfg root).run src s).events
    let places := root.groupPlaces []
    (places.Nodup ∧
      (∀ path, path ∈ places ↔
        ∃ mark body, root.at? path = some (.group mark .capturing body)) ∧
      places.Pairwise fun group later => group <:+ later ∨ ClosesBefore group later) ∧
    (∀ path ∈ places, ∃ offset number isNew, .enter path offset number isNew ∈ es) ∧
    (∀ path offset number isNew, .enter path offset number isNew ∈ es →
      ∃ i, number = i + 1 ∧ places[i]? = some path) ∧
    ∀ before number text after, es = before ++ .refer number text :: after →
      ∃ earlier r mark code, before = earlier ++ [.visit r] ∧
        root.at? r = some (.backReference mark code) ∧ code.toNat = number ∧
        ∀ i group, number = i + 1 → places[i]? = some group → ClosesBefore group r →
          ((History.ofEvents before).outputs group).getLast? = some text := by
  intro es places
  have htour : Tour root places ([] <:+ ·) es := makesTour_sample hsrc cfg hcertain s _ h
  have hfits {before after : List Event} {e : Event} (he : es = before ++ e :: after) :
      e.Fits root (History.ofEvents before) :=
    (sample_follows cfg root).fits_run src s he
  have hle {before after : List Event} (he : es = before ++ after) :
      History.ofEvents before <+: History.ofEvents es := by
    rw [he, History.ofEvents_append]
    exact List.prefix_append _ _
  -- Every group of the list has been entered.
  have hentered : ∀ path ∈ places, ∃ offset number isNew, .enter path offset number isNew ∈ es := by
    intro path hpath
    rw [← htour.groups] at hpath
    exact History.exists_enter_of_mem_groups hpath
  refine ⟨⟨htour.groups ▸ History.nodup_groups _, fun path => ⟨fun hpath => ?_, ?_⟩,
    root.pairwise_groupPlaces []⟩, hentered, fun path offset number isNew he => ?_,
    fun before number text after he => ?_⟩
  · obtain ⟨offset, number, isNew, he⟩ := hentered path hpath
    obtain ⟨before, after, hsplit⟩ := List.append_of_mem he
    exact (hfits hsplit).1
  · rintro ⟨mark, body, hgroup⟩
    exact Node.mem_groupPlaces hgroup
  · obtain ⟨before, after, hsplit⟩ := List.append_of_mem he
    obtain ⟨-, i, hnumber, hi⟩ := hfits hsplit
    -- The groups up to this entrance are the first of all that are entered.
    have hsplit' : es = (before ++ [.enter path offset number isNew]) ++ after := by
      rw [hsplit, List.append_cons]
    have hprefix := hle hsplit'
    rw [History.ofEvents_append] at hprefix
    obtain ⟨later, hgroups⟩ := History.groups_isPrefix hprefix
    have hlt := (List.getElem?_eq_some_iff.mp hi).1
    refine ⟨i, hnumber, ?_⟩
    rw [← htour.groups, ← hgroups]
    exact (List.getElem?_append_left hlt).trans hi
  · obtain ⟨r, -, ⟨earlier, hbefore⟩, ⟨mark, code, hnode, hcode⟩, hclosed⟩ :=
      htour.refer _ _ _ _ he
    refine ⟨earlier, r, mark, code, hbefore, hnode, hcode, fun i group hnumber hi hcloses => ?_⟩
    have hgroup : (History.ofEvents es).groups[i]? = some group := by rw [htour.groups, hi]
    have htext : text = (History.ofEvents before).recalled number := hfits he
    rw [hnumber] at htext
    exact History.getLast?_of_recalled (hle he) hgroup
      (hclosed group (List.mem_of_getElem? hi) hcloses) htext

/-- A group in another one, which is repeated, and then a reference to the inner group. -/
def Node.innerTwice : Node :=
  ofSequence
    [repeated (capture (ofSequence [capture (.token { } .digit), ofChar 'b']))
      (times 2 (some 2)), backTo 2]

/-- The answers that make the digit of the inner group first a four and then a seven. -/
def fourAndSeven : List AllowedCall :=
  [⟨⟨.integer 2 2, 2⟩, fun _ => by decide⟩, ⟨⟨.integer 0 9, 4⟩, fun _ => by decide⟩,
    ⟨⟨.integer 0 9, 7⟩, fun _ => by decide⟩]

/-- The inner group is the second, and the reference behind the repetition adds its text of the
second time. -/
theorem number_of_groupsCertain_innerTwice :
    let o := (sample { } .innerTwice).run Source.recorded fourAndSeven
    let places := Node.innerTwice.groupPlaces []
    Node.innerTwice.GroupsCertain ∧ o.result = .ok "4b7b7" ∧
      places = [[0, 0], [0, 0, 0, 0]] ∧
      (∀ path offset number isNew, .enter path offset number isNew ∈ o.events →
        ∃ i, number = i + 1 ∧ places[i]? = some path) ∧
      o.events = o.events.take 21 ++ .refer 2 "7" :: o.events.drop 22 ∧
      ((History.ofEvents (o.events.take 21)).outputs [0, 0, 0, 0]).getLast? = some "7" := by
  intro o places
  have hcertain : Node.innerTwice.GroupsCertain := by decide
  have hresult : o.result = .ok "4b7b7" := rfl
  have hevents : o.events = o.events.take 21 ++ .refer 2 "7" :: o.events.drop 22 := by decide
  obtain ⟨-, -, hnumber, hrefer⟩ := number_of_groupsCertain Source.recorded
    Source.recorded_inBounds { } .innerTwice hcertain fourAndSeven hresult
  obtain ⟨earlier, r, mark, code, hbefore, -, -, hlast⟩ := hrefer _ _ _ _ hevents
  -- The reference stands behind the repetition.
  have hvisit : (o.events.take 21).getLast? = some (.visit [1]) := by decide
  rw [hbefore, List.getLast?_concat] at hvisit
  cases hvisit
  have hcloses : ClosesBefore [0, 0, 0, 0] [1] :=
    ⟨[], 0, 1, Nat.zero_lt_one, List.suffix_append [0, 0, 0] [0], List.suffix_refl [1]⟩
  exact ⟨hcertain, hresult, rfl, hnumber, hevents, hlast 1 [0, 0, 0, 0] rfl rfl hcloses⟩

end PatternSampler
