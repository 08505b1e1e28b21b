import PatternSampler.Proofs.History
import PatternSampler.Proofs.Places
import PatternSampler.Sample.Session

/-!
# What back-references recall

The interpreter that keeps captured texts and the one that keeps the whole history go through the
same choices and the same events, and what they remember agrees at every step. `Follows` is this
relation between two samplers, and `evaluate_follows` shows it of the two interpreters.

It follows that a back-reference always adds what the history of its own sample recalls
(`refer_of_mem_successive`), and that captured texts could be replaced by histories without a
difference. The groups of a history are groups of the pattern, so their numbers do not run on.
-/

namespace PatternSampler

/-- An event fits a tree and the history so far if it enters a capturing group of the tree under the
number of its place among the groups that have then been entered, or if it recalls what the history
does. Events of other kinds always fit. -/
def Event.Fits (root : Node) (h : History) : Event → Prop
  | .enter path _ number _ =>
    (∃ mark body, root.at? path = some (.group mark .capturing body)) ∧
      ∃ i, number = i + 1 ∧ (History.groups (h ++ [.entered path]))[i]? = some path
  | .refer number text => text = h.recalled number
  | _ => True

/-- An event that has nothing to do with groups. -/
def Event.Quiet : Event → Prop
  | .enter .. | .leave .. | .refer .. => False
  | _ => True

/-- The history after an event. -/
def History.after (h : History) (e : Event) : History := h ++ History.ofEvents [e]

namespace Event

variable {root : Node} {h : History} {e : Event}

/-- An event that has nothing to do with groups fits. -/
theorem Quiet.fits (he : e.Quiet) : e.Fits root h := by
  cases e with
  | enter | leave | refer => exact he.elim
  | _ => trivial

/-- An event that has nothing to do with groups leaves the history as it is. -/
theorem Quiet.after_eq (he : e.Quiet) : h.after e = h := by
  cases e with
  | enter | leave | refer => exact he.elim
  | _ => exact List.append_nil h

end Event

namespace Sampler

variable {α β : Type}

/-- A sampler that has nothing to do with groups. -/
def Quiet : Sampler α → Prop
  | done _ | fail _ => True
  | note e next => e.Quiet ∧ (next ()).Quiet
  | ask _ next => ∀ a, (next a).Quiet

/-- Two quiet samplers in a row are quiet. -/
theorem Quiet.bind {p : Sampler α} {f : α → Sampler β} (hp : p.Quiet) (hf : ∀ a, (f a).Quiet) :
    (p >>= f).Quiet := by
  induction p with
  | done a => exact hf a
  | fail e => trivial
  | note e next ih => exact ⟨hp.1, ih () hp.2⟩
  | ask q next ih => exact fun a => ih a (hp a)

/-- A choice of one of two sides is quiet. -/
theorem quiet_boolean : boolean.Quiet := fun _ => trivial

/-- A choice of an integer is quiet. -/
theorem quiet_integer (least most : UInt32) : (integer least most).Quiet := fun _ => trivial

/-- A choice of a character is quiet. -/
theorem quiet_character : character.Quiet := fun _ => trivial

/-- A computation that asks for nothing is quiet. -/
theorem quiet_ofExcept (x : Except SampleError α) : (ofExcept x).Quiet := by
  cases x <;> trivial

/-- A choice of an index is quiet. -/
theorem quiet_index (n : Nat) : (index n).Quiet := by
  unfold index
  split
  · exact (quiet_integer _ _).bind fun _ => trivial
  · trivial

/-- A choice from a pool is quiet. -/
theorem quiet_pickChar (offset : UInt64) (pool : List Char) : (pickChar offset pool).Quiet := by
  have hpick : (pick pool).Quiet := (quiet_index _).bind fun _ => trivial
  refine hpick.bind fun c => ?_
  cases c <;> trivial

/-- A choice of a count is quiet. -/
theorem quiet_count (cfg : Config) (quantifier : Node) : (count cfg quantifier).Quiet := by
  have hwithin (offset least most) : (countWithin offset least most).Quiet := by
    unfold countWithin
    split
    · exact (quiet_integer _ _).bind fun _ => trivial
    · trivial
  unfold count
  split
  · split
    · exact hwithin _ _ _
    · refine (quiet_integer _ _).bind fun extra => ?_
      dsimp only
      split
      · trivial
      · exact ⟨trivial, hwithin _ _ _⟩
  · trivial

/-- A choice of a code point is quiet. -/
theorem quiet_between (first last : Char) : (between first last).Quiet := by
  unfold between
  split
  · exact quiet_integer _ _
  · exact (quiet_integer _ _).bind fun _ => trivial

/-- A leaf without content is quiet. -/
theorem quiet_tokenText (offset : UInt64) (kind : Token) : (tokenText offset kind).Quiet := by
  have hpool (pool : List Char) : (pickChar offset pool >>= fun c => pure c.toString).Quiet :=
    (quiet_pickChar offset pool).bind fun _ => trivial
  cases kind
  case anyCharacter => exact quiet_character.bind fun _ => trivial
  case digit | nonDigit | whiteSpace | nonWhiteSpace | word | nonWord => exact hpool _
  all_goals trivial

end Sampler

/-- Two samplers go through the same choices and events, from a history on. The events fit the
history at their time, and the values are related at the history then. -/
inductive Follows (root : Node) {α β : Type} (R : History → α → β → Prop) :
    History → Sampler α → Sampler β → Prop where
  | done {h : History} {a : α} {b : β} : R h a b → Follows root R h (.done a) (.done b)
  | fail {h : History} {e : SampleError} : Follows root R h (.fail e) (.fail e)
  | note {h : History} {e : Event} {next : Unit → Sampler α} {next' : Unit → Sampler β} :
    e.Fits root h → Follows root R (h.after e) (next ()) (next' ()) →
      Follows root R h (.note e next) (.note e next')
  | ask {h : History} {q : Query} {next : q.Answer → Sampler α} {next' : q.Answer → Sampler β} :
    (∀ a, Follows root R h (next a) (next' a)) → Follows root R h (.ask q next) (.ask q next')

namespace Follows

variable {root : Node} {α β γ δ : Type} {R : History → α → β → Prop} {S : History → γ → δ → Prop}
  {h : History} {p : Sampler α} {p' : Sampler β}

/-- Samplers that follow each other, each with a continuation, follow each other if the
continuations do after any related values. -/
theorem bind {f : α → Sampler γ} {f' : β → Sampler δ} (hp : Follows root R h p p')
    (hf : ∀ h' a b, h <+: h' → R h' a b → Follows root S h' (f a) (f' b)) :
    Follows root S h (p >>= f) (p' >>= f') := by
  induction hp with
  | done hR => exact hf _ _ _ (List.prefix_refl _) hR
  | fail => exact .fail
  | note he _ ih =>
    refine .note he (ih fun h' a b hh hR => hf h' a b ?_ hR)
    exact (List.prefix_append _ _).trans hh
  | ask _ ih => exact .ask fun a => ih a hf

/-- A quiet sampler does not touch the history before what comes after it. -/
theorem quiet_bind {p : Sampler α} (hp : p.Quiet) {f : α → Sampler γ} {f' : α → Sampler δ}
    (hf : ∀ a, Follows root S h (f a) (f' a)) : Follows root S h (p >>= f) (p >>= f') := by
  induction p with
  | done a => exact hf a
  | fail e => exact .fail
  | note e next ih =>
    refine .note hp.1.fits ?_
    rw [hp.1.after_eq]
    exact ih () hp.2
  | ask q next ih => exact .ask fun a => ih a (hp a)

/-- A quiet event does not touch the history before what comes after it. -/
theorem quiet_note {e : Event} (he : e.Quiet) {next : Unit → Sampler α} {next' : Unit → Sampler β}
    (hnext : Follows root R h (next ()) (next' ())) :
    Follows root R h (.note e next) (.note e next') := by
  refine .note he.fits ?_
  rw [he.after_eq]
  exact hnext

end Follows

/-- The same value, with a history and a record of captured texts that agrees with it. -/
def Alike {α : Type} (h : History) (r : α × Captures Path) (r' : α × History) : Prop :=
  r.1 = r'.1 ∧ r'.2 = h ∧ Agrees h r.2

namespace Follows

open Sampler

variable {root : Node} {α : Type} {h : History} {c : Captures Path}

/-- The same value is given while what is remembered agrees. -/
theorem value (hc : Agrees h c) (a : α) : Follows root Alike h (pure (a, c)) (pure (a, h)) :=
  .done ⟨rfl, rfl, hc⟩

/-- Samplers whose values are alike, each with a continuation, follow each other if the
continuations do whenever what they are handed agrees. -/
theorem bind_alike {β γ : Type} {S : History → β → γ → Prop} {p : Sampler (α × Captures Path)}
    {p' : Sampler (α × History)} {f : α × Captures Path → Sampler β} {f' : α × History → Sampler γ}
    (hp : Follows root Alike h p p')
    (hf : ∀ {h' : History} {c' : Captures Path} (a : α), h <+: h' → Agrees h' c' →
      Follows root S h' (f (a, c')) (f' (a, h'))) :
    Follows root S h (p >>= f) (p' >>= f') := by
  refine hp.bind fun h' r r' hle hR => ?_
  obtain ⟨a, c'⟩ := r
  obtain ⟨a', h''⟩ := r'
  obtain ⟨rfl, rfl, hc'⟩ := hR
  exact hf a hle hc'

/-- Texts that are alike have the same only character. -/
theorem onlyChar {p : Sampler (String × Captures Path)} {p' : Sampler (String × History)}
    (hp : Follows root Alike h p p') (offset : UInt64) :
    Follows root Alike h (p >>= Sampler.onlyChar offset) (p' >>= Sampler.onlyChar offset) := by
  refine hp.bind_alike fun s _ hc => ?_
  dsimp only [Sampler.onlyChar]
  split
  · exact value hc _
  · exact .fail

/-- The ends of a range are alike if their texts are, and so is what goes on with both of them. -/
theorem bind_ends {first last : Captures Path → Sampler (Char × Captures Path)}
    {first' last' : History → Sampler (Char × History)}
    (hfirst : ∀ {h c}, Agrees h c → Follows root Alike h (first c) (first' h))
    (hlast : ∀ {h c}, Agrees h c → Follows root Alike h (last c) (last' h))
    (hc : Agrees h c) (offset : UInt64) {β γ : Type} {S : History → β → γ → Prop}
    {f : Char × Char × Captures Path → Sampler β} {f' : Char × Char × History → Sampler γ}
    (hf : ∀ {h' : History} {c' : Captures Path} (a b : Char), Agrees h' c' →
      Follows root S h' (f (a, b, c')) (f' (a, b, h'))) :
    Follows root S h (Sampler.ends offset first last c >>= f)
      (Sampler.ends offset first' last' h >>= f') := by
  have hends : Follows root (fun h r r' => r.1 = r'.1 ∧ Alike h r.2 r'.2) h
      (Sampler.ends offset first last c) (Sampler.ends offset first' last' h) := by
    refine (hfirst hc).bind_alike fun a _ hc₁ => (hlast hc₁).bind_alike fun b _ hc₂ => ?_
    dsimp only
    split
    · exact .fail
    · exact .done ⟨rfl, rfl, rfl, hc₂⟩
  refine hends.bind fun h' r r' _ hR => ?_
  obtain ⟨a, b, c'⟩ := r
  obtain ⟨a', b', h''⟩ := r'
  obtain ⟨rfl, rfl, rfl, hc'⟩ := hR
  exact hf a b hc'

/-- Two texts in a row are alike if each of them is. -/
theorem inARow {p : Sampler (String × Captures Path)} {p' : Sampler (String × History)}
    {f : Captures Path → Sampler (String × Captures Path)}
    {f' : History → Sampler (String × History)} (hp : Follows root Alike h p p')
    (hf : ∀ {h c}, Agrees h c → Follows root Alike h (f c) (f' h)) :
    Follows root Alike h (do let (s, c) ← p; let (t, c) ← f c; pure (s ++ t, c))
      (do let (s, h) ← p'; let (t, h) ← f' h; pure (s ++ t, h)) :=
  hp.bind_alike fun _ _ hc₁ => (hf hc₁).bind_alike fun _ _ hc₂ => value hc₂ _

/-- Texts of steps in a row are alike if the texts of one step are. -/
theorem repeated {step : Captures Path → Sampler (String × Captures Path)}
    {step' : History → Sampler (String × History)}
    (hstep : ∀ {h c}, Agrees h c → Follows root Alike h (step c) (step' h)) (n : Nat)
    (hc : Agrees h c) :
    Follows root Alike h (Sampler.repeated step n c) (Sampler.repeated step' n h) := by
  induction n generalizing h c with
  | zero => exact value hc _
  | succ n ih => exact inARow (hstep hc) fun hc => ih hc

end Follows

open Sampler

mutual

/-- The interpreter that keeps captured texts and the one that keeps the history go through the same
choices and events. -/
theorem evaluate_follows (root : Node) (cfg : Config) (node : Node) (path : Path) (depth : Nat)
    (hroot : root.at? path = some node) {h : History} {c : Captures Path} (hc : Agrees h c) :
    Follows root Alike h (Captures.memory.evaluate cfg node path depth c)
      (History.memory.evaluate cfg node path depth h) := by
  have hchild (i : Nat) : root.at? (i :: path) = node.child? i := Node.at_child hroot i
  unfold Memory.evaluate
  by_cases hdeep : cfg.maxDepth ≤ depth
  · rw [if_pos hdeep, if_pos hdeep]
    exact .fail
  rw [if_neg hdeep, if_neg hdeep]
  have hvisit : (Event.visit path).Quiet := trivial
  refine .quiet_note hvisit ?_
  match node with
  | .alternate _ l r =>
    refine .quiet_bind quiet_boolean fun b => ?_
    cases b
    · exact evaluate_follows root cfg r _ _ (hchild 1) hc
    · exact evaluate_follows root cfg l _ _ (hchild 0) hc
  | .sequence _ body =>
    exact evaluateAll_follows root cfg body _ _ _ (.of_at hroot fun _ => rfl) hc
  | .group mark .capturing body =>
    -- Both memories give the group the same number, by its place among the groups.
    obtain ⟨hnumber, hnew⟩ := hc.enter_eq path
    obtain ⟨i, hi, hplace⟩ := History.enter_place h path
    have hhistory := History.enter_history h path
    have hentered := hc.enter path
    generalize Captures.memory.enter path c = entered at *
    generalize History.memory.enter path h = entered' at *
    obtain ⟨number, isNew, c₁⟩ := entered
    obtain ⟨number', isNew', h₁⟩ := entered'
    dsimp only at *
    subst hnumber hnew hhistory hi
    have hfits : (Event.enter path mark.offset (i + 1) isNew).Fits root h :=
      ⟨⟨mark, body, hroot⟩, i, rfl, hplace⟩
    refine .note hfits ?_
    have hbody := evaluate_follows root cfg body _ (depth + 1) (hchild 0) hentered
    refine hbody.bind_alike fun {h₂ c₂} s hle hc₂ => ?_
    -- The group has kept its place while its body was evaluated.
    have hstill : h₂.groups[i]? = some path := by
      obtain ⟨later, hlater⟩ := History.groups_isPrefix hle
      have hlt := (List.getElem?_eq_some_iff.mp hplace).1
      rw [← hlater, List.getElem?_append_left hlt, hplace]
    exact .note trivial (.value (hc₂.leave hstill s) s)
  | .group _ .plain body => exact evaluate_follows root cfg body _ _ (hchild 0) hc
  | .group _ .ahead body => exact evaluate_follows root cfg body _ _ (hchild 0) hc
  | .group _ .notAhead _ => exact .value hc _
  | .quantified _ body q =>
    refine .quiet_bind (quiet_count cfg q) fun n => ?_
    exact .repeated (fun hc => evaluate_follows root cfg body _ _ (hchild 0) hc) n hc
  | .quantifier .. => exact .value hc _
  | .charset mark body true =>
    have hspare := spare_follows root cfg body _ _ (depth + 1) (.of_at hroot fun _ => rfl)
      Alphabet.printable hc
    refine hspare.bind_alike fun pool _ hc₁ => ?_
    exact .quiet_bind (quiet_pickChar _ pool) fun _ => .value hc₁ _
  | .charset mark body false =>
    refine .quiet_bind (quiet_index _) fun i => ?_
    cases i with
    | none => exact .fail
    | some i => exact evaluateNth_follows root cfg body _ _ _ _ _ (.of_at hroot fun _ => rfl) hc
  | .range mark first last =>
    have hfirst {h c} (hc : Agrees h c) :=
      evaluate_follows root cfg first _ (depth + 1) (hchild 0) hc
    have hlast {h c} (hc : Agrees h c) :=
      evaluate_follows root cfg last _ (depth + 1) (hchild 1) hc
    refine .bind_ends (fun hc => (hfirst hc).onlyChar first.offset)
      (fun hc => (hlast hc).onlyChar last.offset) hc mark.offset fun a b hc₁ => ?_
    refine .quiet_bind (quiet_between a b) fun value => ?_
    exact .quiet_bind (quiet_ofExcept _) fun _ => .value hc₁ _
  | .literal .. => exact .value hc _
  | .numeric .. => exact .quiet_bind (quiet_ofExcept _) fun _ => .value hc _
  | .backReference _ code =>
    -- The record recalls what the history does, so the texts are the same and fit it.
    have hkept : Captures.memory.recalled code.toNat c = h.recalled code.toNat := hc.kept code.toNat
    have hrecall : History.memory.recalled code.toNat h = h.recalled code.toNat := rfl
    dsimp only
    rw [hkept, hrecall]
    have hfits : (Event.refer code.toNat (h.recalled code.toNat)).Fits root h := rfl
    have hafter : h.after (.refer code.toNat (h.recalled code.toNat)) = h := List.append_nil h
    refine .note hfits ?_
    rw [hafter]
    exact .value hc _
  | .control _ code =>
    dsimp only
    split
    · exact .value hc _
    · exact .fail
  | .token mark kind => exact .quiet_bind (quiet_tokenText _ kind) fun _ => .value hc _
  | .unknown _ => exact .value hc _

/-- So do they for nodes in a row. -/
theorem evaluateAll_follows (root : Node) (cfg : Config) (nodes : List Node) (path : Path)
    (place depth : Nat) (hrow : Node.Row root nodes path place) {h : History}
    {c : Captures Path} (hc : Agrees h c) :
    Follows root Alike h (Captures.memory.evaluateAll cfg nodes path place depth c)
      (History.memory.evaluateAll cfg nodes path place depth h) := by
  unfold Memory.evaluateAll
  match nodes with
  | [] => exact .value hc _
  | n :: ns =>
    exact .inARow (evaluate_follows root cfg n _ _ hrow.head hc)
      fun hc => evaluateAll_follows root cfg ns _ _ _ hrow.tail hc

/-- So do they for one of some nodes. -/
theorem evaluateNth_follows (root : Node) (cfg : Config) (nodes : List Node) (offset : UInt64)
    (path : Path) (place i depth : Nat) (hrow : Node.Row root nodes path place)
    {h : History} {c : Captures Path} (hc : Agrees h c) :
    Follows root Alike h (Captures.memory.evaluateNth cfg offset nodes path place i depth c)
      (History.memory.evaluateNth cfg offset nodes path place i depth h) := by
  unfold Memory.evaluateNth
  match nodes, i with
  | [], _ => exact .fail
  | n :: _, 0 => exact evaluate_follows root cfg n _ _ hrow.head hc
  | _ :: ns, i + 1 => exact evaluateNth_follows root cfg ns offset _ _ i _ hrow.tail hc

/-- So do they for what entries leave of a pool. -/
theorem spare_follows (root : Node) (cfg : Config) (entries : List Node) (path : Path)
    (place depth : Nat) (hrow : Node.Row root entries path place)
    (pool : List Char) {h : History} {c : Captures Path} (hc : Agrees h c) :
    Follows root Alike h (Captures.memory.spare cfg entries path place depth pool c)
      (History.memory.spare cfg entries path place depth pool h) := by
  unfold Memory.spare
  match entries with
  | [] => exact .value hc _
  | entry :: rest =>
    have hrest (pool : List Char) {h : History} {c : Captures Path} (hc : Agrees h c) :=
      spare_follows root cfg rest path (place + 1) depth hrow.tail pool hc
    match entry with
    | .range mark first last =>
      -- The range is visited itself, and its ends lie under it.
      have hchild := Node.at_child hrow.head
      have hfirst {h c} (hc : Agrees h c) := evaluate_follows root cfg first _ depth (hchild 0) hc
      have hlast {h c} (hc : Agrees h c) := evaluate_follows root cfg last _ depth (hchild 1) hc
      have hvisit : (Event.visit (place :: path)).Quiet := trivial
      refine .quiet_note hvisit (.bind_ends (fun hc => (hfirst hc).onlyChar first.offset)
        (fun hc => (hlast hc).onlyChar last.offset) hc mark.offset fun a b hc₁ => ?_)
      exact hrest _ hc₁
    | .literal .. | .alternate .. | .sequence .. | .group .. | .quantified .. | .quantifier ..
    | .charset .. | .numeric .. | .backReference .. | .control .. | .token .. | .unknown .. =>
      exact hrest _ hc

end

namespace Follows

variable {root : Node} {α β : Type} {R : History → α → β → Prop} {h : History} {p : Sampler α}
  {p' : Sampler β}

/-- Samplers that follow each other are the same sampler once their values are made the same. -/
theorem map_eq {γ : Type} {f : α → γ} {g : β → γ} (hp : Follows root R h p p')
    (hR : ∀ h a b, R h a b → f a = g b) : f <$> p = g <$> p' := by
  induction hp with
  | done hab => exact congrArg Sampler.done (hR _ _ _ hab)
  | fail => rfl
  | note _ _ ih =>
    rw [map_note, map_note]
    exact congrArg _ (funext fun _ => ih)
  | ask _ ih =>
    rw [map_ask, map_ask]
    exact congrArg _ (funext ih)

/-- Every event of a run fits the history of the events before it. -/
theorem fits_run (hp : Follows root R h p p') {σ : Type} (src : Source σ) (s : σ)
    {before after : List Event} {e : Event} (he : (p.run src s).events = before ++ e :: after) :
    e.Fits root (h ++ History.ofEvents before) := by
  induction hp generalizing s before with
  | done =>
    exact absurd he.symm (List.append_ne_nil_of_right_ne_nil before (List.cons_ne_nil e after))
  | fail =>
    exact absurd he.symm (List.append_ne_nil_of_right_ne_nil before (List.cons_ne_nil e after))
  | note hfits _ ih =>
    rw [events_run_note] at he
    cases before with
    | nil =>
      cases he
      rw [History.ofEvents, List.filterMap_nil, List.append_nil]
      exact hfits
    | cons e₁ before =>
      -- The first event has become part of the history that the others are held against.
      obtain ⟨rfl, hrest⟩ := List.cons.inj he
      have hih := ih s hrest
      rw [History.after, List.append_assoc, History.ofEvents, History.ofEvents,
        ← List.filterMap_append] at hih
      exact hih
  | ask _ ih =>
    rw [events_run_ask] at he
    exact ih _ _ he

end Follows

/-- A sample and the sample that keeps the whole history follow each other. -/
theorem sample_follows (cfg : Config) (node : Node) :
    Follows node (fun _ s s' => s = s') [] (sample cfg node)
      (History.memory.sample cfg node []) := by
  rw [sample_eq_memory]
  refine (evaluate_follows node cfg node [] 0 rfl agrees_empty).bind_alike fun s _ _ => ?_
  have hcomplete : (Event.complete s.length node.tag node.offset).Quiet := trivial
  exact .quiet_note hcomplete (.done rfl)

/-- A sample may as well keep the whole history. -/
theorem sample_eq_history (cfg : Config) (node : Node) :
    sample cfg node = History.memory.sample cfg node [] := by
  have hmap := (sample_follows cfg node).map_eq (f := id) (g := id) fun _ _ _ h => h
  rwa [id_map, id_map] at hmap

/-- Every group that a sample enters is a capturing group of the pattern. -/
theorem groups_subset_groupPlaces {σ : Type} (src : Source σ) (cfg : Config) (node : Node) (s : σ) :
    (History.ofEvents ((sample cfg node).run src s).events).groups ⊆ node.groupPlaces [] := by
  intro path hpath
  obtain ⟨moment, hmoment, hentry⟩ := List.mem_filterMap.mp (List.mem_eraseDups.mp hpath)
  obtain ⟨e, he, hevent⟩ := List.mem_filterMap.mp hmoment
  obtain ⟨before, after, hsplit⟩ := List.append_of_mem he
  have hfits := (sample_follows cfg node).fits_run src s hsplit
  cases e with
  | enter group offset number isNew =>
    cases hevent
    cases hentry
    obtain ⟨⟨mark, body, hgroup⟩, -⟩ := hfits
    exact Node.mem_groupPlaces hgroup
  | leave group text =>
    cases hevent
    cases hentry
  | _ => cases hevent

/-- The groups that have been entered at some time of a sample are no more than there are in the
pattern. -/
theorem length_groups_le {σ : Type} (src : Source σ) (cfg : Config) (node : Node) (s : σ)
    {before after : List Event} (he : ((sample cfg node).run src s).events = before ++ after) :
    (History.ofEvents before).groups.length ≤ (node.groupPlaces []).length := by
  have hearlier : History.ofEvents before <+:
      History.ofEvents ((sample cfg node).run src s).events := by
    rw [he, History.ofEvents, History.ofEvents, List.filterMap_append]
    exact List.prefix_append _ _
  calc (History.ofEvents before).groups.length
    _ ≤ (History.ofEvents ((sample cfg node).run src s).events).groups.length :=
      (History.groups_isPrefix hearlier).length_le
    _ ≤ (node.groupPlaces []).length :=
      (History.nodup_groups _).length_le_of_subset (groups_subset_groupPlaces src cfg node s)

/-- Every one of several samples in a row is a run from nothing captured. -/
theorem exists_run_of_mem_successive {σ : Type} {src : Source σ} {cfg : Config} {node : Node}
    {n : Nat} {start : σ} {o : Outcome σ String} (ho : o ∈ successive src cfg node n start) :
    ∃ s, o = (sample cfg node).run src s := by
  induction n generalizing start with
  | zero => cases ho
  | succ n ih =>
    rcases List.mem_cons.mp ho with rfl | ho
    · exact ⟨start, rfl⟩
    · exact ih ho

/-- The law of back-references, for each of any number of samples in a row. The sample is one that
remembers nothing but the history of its own groups, from an empty one. Every group that is entered
is a capturing group of the pattern at its place. Its number tells its place among the groups in the
order in which they were first entered, and is at most the number of capturing groups there are.
Every back-reference adds what the group with its number gave when it was last left, in the history
of this sample so far. -/
theorem refer_of_mem_successive {σ : Type} (src : Source σ) (cfg : Config) (node : Node) (n : Nat)
    (start : σ) {o : Outcome σ String} (ho : o ∈ successive src cfg node n start) :
    (∃ s, o = (History.memory.sample cfg node []).run src s) ∧
      (∀ before path offset number isNew after,
        o.events = before ++ .enter path offset number isNew :: after →
          (∃ mark body, node.at? path = some (.group mark .capturing body)) ∧
            (∃ i, number = i + 1 ∧
              (History.groups (History.ofEvents before ++ [.entered path]))[i]? = some path) ∧
            number ≤ (node.groupPlaces []).length) ∧
      ∀ before number text after,
        o.events = before ++ .refer number text :: after →
          text = (History.ofEvents before).recalled number := by
  obtain ⟨s, rfl⟩ := exists_run_of_mem_successive ho
  refine ⟨⟨s, by rw [sample_eq_history]⟩, ?_, ?_⟩
  · intro before path offset number isNew after he
    obtain ⟨hgroup, i, hnumber, hi⟩ := (sample_follows cfg node).fits_run src s he
    refine ⟨hgroup, ⟨i, hnumber, hi⟩, ?_⟩
    -- The events up to this one, which has made the group one of those that have been entered.
    have he' : ((sample cfg node).run src s).events =
        (before ++ [.enter path offset number isNew]) ++ after := by rw [he, List.append_cons]
    have hlength := length_groups_le src cfg node s he'
    rw [History.ofEvents, List.filterMap_append] at hlength
    have hlt := (List.getElem?_eq_some_iff.mp hi).1
    rw [hnumber]
    exact Nat.le_trans hlt hlength
  · intro before number text after he
    exact (sample_follows cfg node).fits_run src s he

/-- A group that refers to itself behind a letter, twice in a row. -/
def Node.selfReference : Node :=
  .quantified { }
    (.group { } .capturing (.sequence { } [.literal { } 'a' true, .backReference { } 1]))
    (.quantifier { } { min := 2, max := some 2 } true)

/-- Inside the group, the second time, the text of the first time is recalled. -/
theorem refer_selfReference :
    let o := (sample { } .selfReference).run Source.lowest ()
    o ∈ successive Source.lowest { } .selfReference 1 () ∧ o.result = .ok "aaa" ∧
      o.events = o.events.take 13 ++ .refer 1 "a" :: o.events.drop 14 ∧
      "a" = (History.ofEvents (o.events.take 13)).recalled 1 := by
  intro o
  have ho : o ∈ successive Source.lowest { } .selfReference 1 () := List.mem_singleton.mpr rfl
  have hevents : o.events = o.events.take 13 ++ .refer 1 "a" :: o.events.drop 14 := by decide
  obtain ⟨-, -, hrefer⟩ := refer_of_mem_successive Source.lowest { } .selfReference 1 () ho
  exact ⟨ho, rfl, hevents, hrefer _ _ _ _ hevents⟩

end PatternSampler
