import PatternSampler.Proofs.Recall

/-!
# Tours of groups

A `Tour` says what the events of a part of a pattern have to do with the groups of that part, where
none of them is left out: the groups have been entered in order, each of them has been left, and a
back-reference comes after the groups that close before it (`ClosesBefore`).

A tour of some parts followed by a tour of later parts is a tour of all of them (`Tour.append`), and
a tour that is made more than once is still a tour (`Tour.again`). A group is entered before a tour
of its body and left after it (`Tour.captured`). A sampler makes a tour if the events of each of its
runs that gives a value are one.
-/

namespace PatternSampler

namespace History

/-- What has happened in the course of two lists of events has happened in the course of the one and
then of the other. -/
theorem ofEvents_append (es es' : List Event) :
    ofEvents (es ++ es') = ofEvents es ++ ofEvents es' := List.filterMap_append

/-- A group of a history has been entered in one of the events. -/
theorem exists_enter_of_mem_groups {es : List Event} {path : Path}
    (h : path ∈ (ofEvents es).groups) :
    ∃ offset number isNew, .enter path offset number isNew ∈ es := by
  obtain ⟨moment, hmoment, hentry⟩ := List.mem_filterMap.mp (List.mem_eraseDups.mp h)
  obtain ⟨e, he, hevent⟩ := List.mem_filterMap.mp hmoment
  -- Of the events that mean something for groups, only the entrance is one of this group.
  cases e with
  | enter group offset number isNew =>
    cases hevent
    cases hentry
    exact ⟨offset, number, isNew, he⟩
  | leave =>
    cases hevent
    cases hentry
  | _ => cases hevent

/-- Groups that are entered for the first time come after those before. -/
theorem groups_append_of_disjoint {h h' : History} (hnew : ∀ path ∈ h'.groups, path ∉ h.groups) :
    groups (h ++ h') = h.groups ++ h'.groups := by
  have hkeep : (h'.filterMap Moment.entry?).removeAll (h.filterMap Moment.entry?) =
      h'.filterMap Moment.entry? := by
    refine List.filter_eq_self.mpr fun path hpath => ?_
    have hnot := hnew path (List.mem_eraseDups.mpr hpath)
    rw [groups, List.mem_eraseDups] at hnot
    simpa using hnot
  rw [groups, List.filterMap_append, List.eraseDups_append, hkeep, groups, groups]

/-- Groups that are entered again keep their places. -/
theorem groups_append_of_subset {h h' : History} (hold : h'.groups ⊆ h.groups) :
    groups (h ++ h') = h.groups := by
  have hnone : (h'.filterMap Moment.entry?).removeAll (h.filterMap Moment.entry?) = [] := by
    refine List.filter_eq_nil_iff.mpr fun path hpath => ?_
    have hin := hold (List.mem_eraseDups.mpr hpath)
    rw [groups, List.mem_eraseDups] at hin
    simpa using hin
  rw [groups, List.filterMap_append, List.eraseDups_append, hnone, List.eraseDups_nil,
    List.append_nil, groups]

/-- A group gives its texts in one history and then in the other. -/
theorem outputs_append (h h' : History) (path : Path) :
    outputs (h ++ h') path = h.outputs path ++ h'.outputs path := List.filterMap_append

/-- A group has been entered and left. -/
def Closed (h : History) (path : Path) : Prop := path ∈ h.groups ∧ h.outputs path ≠ []

/-- A group that has been left has been so later, too. -/
theorem Closed.append_right {h : History} {path : Path} (hc : h.Closed path) (h' : History) :
    Closed (h ++ h') path := by
  refine ⟨(groups_isPrefix (List.prefix_append h h')).subset hc.1, ?_⟩
  rw [outputs_append]
  exact List.append_ne_nil_of_left_ne_nil hc.2 _

/-- Whether a group has been left may be told from what happened last. -/
theorem Closed.append_left {h' : History} {path : Path} (hc : h'.Closed path) (h : History) :
    Closed (h ++ h') path := by
  refine ⟨?_, ?_⟩
  · have hentry := List.mem_eraseDups.mp hc.1
    rw [groups, List.mem_eraseDups, List.filterMap_append]
    exact List.mem_append_right _ hentry
  · rw [outputs_append]
    exact List.append_ne_nil_of_right_ne_nil _ hc.2

end History

/-- Some events lead up to the text of the back-reference at a place: it has just been visited, and
those of some groups that close before it have been left. -/
structure Arrives (root : Node) (places : List Path) (r : Path) (number : Nat)
    (before : List Event) : Prop where
  visit : ∃ earlier, before = earlier ++ [.visit r]
  node : ∃ mark code, root.at? r = some (.backReference mark code) ∧ code.toNat = number
  closed : ∀ group ∈ places, ClosesBefore group r → (History.ofEvents before).Closed group

/-- Other events may come before those that lead up to the text of a back-reference, and other
groups may have been left in the course of them. -/
theorem Arrives.prepend {root : Node} {places all : List Path} {r : Path} {number : Nat}
    {before : List Event} (h : Arrives root places r number before) (es : List Event)
    (hall : ∀ group ∈ all, ClosesBefore group r →
      (History.ofEvents es).Closed group ∨ group ∈ places) :
    Arrives root all r number (es ++ before) := by
  obtain ⟨⟨earlier, rfl⟩, hnode, hclosed⟩ := h
  refine ⟨⟨es ++ earlier, (List.append_assoc ..).symm⟩, hnode, fun group hgroup hcloses => ?_⟩
  rw [History.ofEvents_append]
  rcases hall group hgroup hcloses with hin | hin
  · exact hin.append_right _
  · exact (hclosed group hin hcloses).append_left _

/-- The events of a part of a pattern in some region, which has groups at some places. All of them
have been entered, in this order, and left. A back-reference is a node of the region, and comes
after those of the groups that close before it have been left. -/
structure Tour (root : Node) (places : List Path) (region : Path → Prop) (es : List Event) :
    Prop where
  groups : (History.ofEvents es).groups = places
  left : ∀ group ∈ places, (History.ofEvents es).outputs group ≠ []
  refer : ∀ before number text after, es = before ++ .refer number text :: after →
    ∃ r, region r ∧ Arrives root places r number before

/-- An event that is found among others between a first and a last one, and is neither of them, is
one of the others. -/
theorem exists_split_between {first last e : Event} {es before after : List Event}
    (h : first :: (es ++ [last]) = before ++ e :: after) (hfirst : first ≠ e) (hlast : last ≠ e) :
    ∃ before' after', before = first :: before' ∧ es = before' ++ e :: after' := by
  cases before with
  | nil => exact absurd (List.cons.inj h).1 hfirst
  | cons e' before =>
    obtain ⟨rfl, htail⟩ := List.cons.inj h
    rcases List.append_eq_append_iff.mp htail with ⟨rest, -, hrest⟩ | ⟨rest, hes, hrest⟩
    · rcases List.append_eq_cons_iff.mp hrest.symm with ⟨-, heq⟩ | ⟨_, -, hnil⟩
      · exact absurd (List.cons.inj heq).1.symm hlast
      · cases (List.append_eq_nil_iff.mp hnil.symm).2
    · rcases List.append_eq_cons_iff.mp hrest.symm with ⟨-, heq⟩ | ⟨after', rfl, -⟩
      · exact absurd (List.cons.inj heq).1 hlast
      · exact ⟨before, after', rfl, hes⟩

namespace Tour

variable {root : Node} {places places' : List Path} {region region' : Path → Prop}
  {es es' : List Event}

/-- All groups of a tour have been left. -/
theorem closed (h : Tour root places region es) {group : Path} (hgroup : group ∈ places) :
    (History.ofEvents es).Closed group :=
  ⟨h.groups ▸ hgroup, h.left group hgroup⟩

/-- A tour of a region is one of any larger region. -/
theorem widen (h : Tour root places region es) (hregion : ∀ r, region r → region' r) :
    Tour root places region' es := by
  refine ⟨h.groups, h.left, fun before number text after hes => ?_⟩
  obtain ⟨r, hr, harrives⟩ := h.refer before number text after hes
  exact ⟨r, hregion r hr, harrives⟩

/-- Events that have nothing to do with groups are a tour without groups. -/
theorem quiet (h : ∀ e ∈ es, e.Quiet) : Tour root [] region es := by
  have hempty : History.ofEvents es = [] := by
    refine List.filterMap_eq_nil_iff.mpr fun e he => ?_
    have hquiet := h e he
    cases e with
    | enter | leave | refer => exact hquiet.elim
    | _ => rfl
  refine ⟨by rw [hempty]; rfl, nofun, fun before number text after hes => ?_⟩
  have hmem : Event.refer number text ∈ es := by
    rw [hes]
    exact List.mem_append_right _ List.mem_cons_self
  exact (h _ hmem).elim

/-- The back-references of two tours in a row come after the groups of both that close before
them. -/
theorem refer_append (h : Tour root places region es) (h' : Tour root places' region' es')
    {all : List Path}
    (hfirst : ∀ group ∈ all, ∀ r, region r → ClosesBefore group r → group ∈ places)
    (hall : ∀ group ∈ all, group ∈ places ∨ group ∈ places') (before : List Event) (number : Nat)
    (text : String) (after : List Event) (hes : es ++ es' = before ++ .refer number text :: after) :
    ∃ r, (region r ∨ region' r) ∧ Arrives root all r number before := by
  -- Events of the second tour come after all of the first.
  have hsecond (before : List Event) (hes' : es' = before ++ .refer number text :: after) :
      ∃ r, (region r ∨ region' r) ∧ Arrives root all r number (es ++ before) := by
    obtain ⟨r, hr, harrives⟩ := h'.refer _ _ _ _ hes'
    refine ⟨r, .inr hr, harrives.prepend es fun group hgroup _ => ?_⟩
    exact (hall group hgroup).imp_left h.closed
  rcases List.append_eq_append_iff.mp hes with ⟨later, rfl, hes'⟩ | ⟨rest, hes, hrest⟩
  · exact hsecond later hes'
  · cases rest with
    | nil =>
      have hbefore := hsecond [] hrest.symm
      rwa [hes, List.append_nil, List.append_nil] at hbefore
    | cons e rest =>
      obtain ⟨rfl, -⟩ := List.cons.inj hrest
      obtain ⟨r, hr, harrives⟩ := h.refer _ _ _ _ hes
      exact ⟨r, .inl hr, harrives.prepend [] fun group hgroup hcloses =>
        .inr (hfirst group hgroup r hr hcloses)⟩

/-- A tour of some parts of a pattern followed by one of parts that come after them is a tour of
all these parts. -/
theorem append (h : Tour root places region es) (h' : Tour root places' region' es')
    (hdisjoint : ∀ group ∈ places', group ∉ places)
    (hlater : ∀ group ∈ places', ∀ r, region r → ¬ClosesBefore group r) :
    Tour root (places ++ places') (fun r => region r ∨ region' r) (es ++ es') := by
  have hnew : ∀ group ∈ (History.ofEvents es').groups, group ∉ (History.ofEvents es).groups := by
    rw [h.groups, h'.groups]
    exact hdisjoint
  refine ⟨?_, fun group hgroup => ?_, ?_⟩
  · rw [History.ofEvents_append, History.groups_append_of_disjoint hnew, h.groups, h'.groups]
  · rw [History.ofEvents_append, History.outputs_append]
    rcases List.mem_append.mp hgroup with hin | hin
    · exact List.append_ne_nil_of_left_ne_nil (h.left group hin) _
    · exact List.append_ne_nil_of_right_ne_nil _ (h'.left group hin)
  · refine h.refer_append h' (fun group hgroup r hr hcloses => ?_) fun _ => List.mem_append.mp
    -- A back-reference of the first tour comes after none of the later groups.
    rcases List.mem_append.mp hgroup with hin | hin
    · exact hin
    · exact absurd hcloses (hlater group hin r hr)

/-- A tour that is made again is still a tour. -/
theorem again (h : Tour root places region es) (h' : Tour root places region es') :
    Tour root places region (es ++ es') := by
  have hold : (History.ofEvents es').groups ⊆ (History.ofEvents es).groups := by
    rw [h.groups, h'.groups]
    exact List.Subset.refl _
  refine ⟨?_, fun group hgroup => ?_, fun before number text after hes => ?_⟩
  · rw [History.ofEvents_append, History.groups_append_of_subset hold, h.groups]
  · rw [History.ofEvents_append, History.outputs_append]
    exact List.append_ne_nil_of_left_ne_nil (h.left group hgroup) _
  · have hrefer := h.refer_append h' (fun _ hgroup _ _ _ => hgroup) (fun _ => .inl) before number
      text after hes
    simpa only [or_self] using hrefer

/-- Events that have nothing to do with groups may come after a tour. -/
theorem append_quiet (h : Tour root places region es) (h' : ∀ e ∈ es', e.Quiet) :
    Tour root places region (es ++ es') := by
  have hquiet : Tour root [] region es' := quiet h'
  have htour := h.append hquiet nofun nofun
  rw [List.append_nil] at htour
  exact htour.widen fun _ hr => hr.elim id id

/-- Events that have nothing to do with groups may come before a tour. -/
theorem quiet_append (h' : ∀ e ∈ es', e.Quiet) (h : Tour root places region es) :
    Tour root places region (es' ++ es) := by
  have hquiet : Tour root [] (fun _ => False) es' := quiet h'
  have htour := hquiet.append h (fun _ _ => List.not_mem_nil) fun _ _ _ => False.elim
  exact htour.widen fun _ hr => hr.elim False.elim id

/-- A group is entered before a tour of its body, and left after it. -/
theorem captured (h : Tour root places region es) {path : Path} (hbody : path ∉ places)
    (hregion : ∀ r, region r → path <:+ r) (offset : UInt64) (number : Nat) (isNew : Bool)
    (text : String) :
    Tour root (path :: places) region
      (.enter path offset number isNew :: (es ++ [.leave path text])) := by
  have hhistory : History.ofEvents (.enter path offset number isNew :: (es ++ [.leave path text])) =
      [.entered path] ++ (History.ofEvents es ++ [.left path text]) := by
    have hfront : History.ofEvents [.enter path offset number isNew] = [.entered path] := rfl
    have hback : History.ofEvents [.leave path text] = [.left path text] := rfl
    rw [← hfront, ← hback, ← History.ofEvents_append, ← History.ofEvents_append]
    rfl
  have hgroups : History.groups (History.ofEvents es ++ [.left path text]) = places := by
    rw [History.groups_left, h.groups]
  have hfirst : History.groups [.entered path] = [path] := rfl
  refine ⟨?_, fun group hgroup => ?_, fun before n t after hes => ?_⟩
  · rw [hhistory, History.groups_append_of_disjoint, hgroups, hfirst, List.singleton_append]
    rw [hgroups, hfirst]
    intro group hgroup hpath
    exact hbody (List.mem_singleton.mp hpath ▸ hgroup)
  · rw [hhistory, History.outputs_append, History.outputs_left]
    refine List.append_ne_nil_of_right_ne_nil _ ?_
    split
    · exact List.append_ne_nil_of_right_ne_nil _ (List.cons_ne_nil _ _)
    · next hne =>
      exact h.left group ((List.mem_cons.mp hgroup).resolve_left fun heq => hne heq.symm)
  · obtain ⟨before, rest, rfl, hinside⟩ := exists_split_between hes nofun nofun
    obtain ⟨r, hr, harrives⟩ := h.refer _ _ _ _ hinside
    refine ⟨r, hr, harrives.prepend [_] fun group hgroup hcloses => .inr ?_⟩
    -- The group itself does not close before what is inside.
    refine (List.mem_cons.mp hgroup).resolve_left fun heq => ?_
    exact not_closesBefore_of_suffix (hregion r hr) (heq ▸ hcloses)

/-- A back-reference is visited, and adds a text. -/
theorem backReference {r : Path} {mark : Mark} {code : UInt32} (hr : region r)
    (hnode : root.at? r = some (.backReference mark code)) (text : String) :
    Tour root [] region [.visit r, .refer code.toNat text] := by
  refine ⟨rfl, nofun, fun before number text' after hes => ?_⟩
  match before with
  | [] => cases hes
  | [e] =>
    cases hes
    exact ⟨r, hr, ⟨[], rfl⟩, ⟨mark, code, hnode, rfl⟩, nofun⟩
  | _ :: _ :: before =>
    have hnil := (List.cons.inj (List.cons.inj hes).2).2
    cases (List.append_eq_nil_iff.mp hnil.symm).2

end Tour

namespace Sampler

variable {σ α β : Type} {src : Source σ} {root : Node} {places places' : List Path}
  {region region' : Path → Prop} {p : Sampler α} {f : α → Sampler β} {s : σ}

/-- The events of a quiet sampler have nothing to do with groups. -/
theorem Quiet.events (hp : p.Quiet) (src : Source σ) (s : σ) :
    ∀ e ∈ (p.run src s).events, e.Quiet := by
  induction p generalizing s with
  | done a => exact nofun
  | fail e => exact nofun
  | note e next ih =>
    rw [events_run_note]
    exact List.forall_mem_cons.mpr ⟨hp.1, ih () hp.2 s⟩
  | ask q next ih =>
    rw [events_run_ask]
    exact ih _ (hp _) _

/-- A run of two samplers in a row that gives a value goes through the events of both. -/
theorem events_run_bind {b : β} (h : ((p >>= f).run src s).result = .ok b) :
    ∃ a s', (p.run src s).result = .ok a ∧ ((f a).run src s').result = .ok b ∧
      ((p >>= f).run src s).events = (p.run src s).events ++ ((f a).run src s').events := by
  rw [run_bind, Outcome.andThen] at h ⊢
  cases ha : (p.run src s).result with
  | error e =>
    rw [ha] at h
    cases h
  | ok a =>
    rw [ha] at h
    exact ⟨a, _, rfl, h, List.filterMap_append⟩

/-- The events of every run that gives a value are a tour. -/
def MakesTour (src : Source σ) (root : Node) (places : List Path) (region : Path → Prop)
    (p : Sampler α) : Prop :=
  ∀ s a, (p.run src s).result = .ok a → Tour root places region (p.run src s).events

/-- A sampler that has nothing to do with groups makes a tour without groups. -/
theorem makesTour_of_quiet (hp : p.Quiet) : p.MakesTour src root [] region :=
  fun s _ _ => .quiet (hp.events src s)

namespace MakesTour

/-- A sampler that makes a tour of a region makes one of any larger region. -/
theorem widen (hp : p.MakesTour src root places region) (hregion : ∀ r, region r → region' r) :
    p.MakesTour src root places region' :=
  fun s a h => (hp s a h).widen hregion

/-- Before a tour there may be a quiet sampler. -/
theorem quiet_bind (hp : p.Quiet)
    (hf : ∀ s a, (p.run src s).result = .ok a → (f a).MakesTour src root places region) :
    (p >>= f).MakesTour src root places region := by
  intro s b h
  obtain ⟨a, s', ha, hb, hevents⟩ := events_run_bind h
  rw [hevents]
  exact .quiet_append (hp.events src s) (hf s a ha s' b hb)

/-- After a tour there may be a quiet sampler. -/
theorem bind_quiet (hp : p.MakesTour src root places region) (hf : ∀ a, (f a).Quiet) :
    (p >>= f).MakesTour src root places region := by
  intro s b h
  obtain ⟨a, s', ha, hb, hevents⟩ := events_run_bind h
  rw [hevents]
  exact (hp s a ha).append_quiet ((hf a).events src s')

/-- A tour of some parts of a pattern may be followed by a tour of parts that come after them. -/
theorem bind (hp : p.MakesTour src root places region)
    (hf : ∀ a, (f a).MakesTour src root places' region')
    (hdisjoint : ∀ group ∈ places', group ∉ places)
    (hlater : ∀ group ∈ places', ∀ r, region r → ¬ClosesBefore group r) :
    (p >>= f).MakesTour src root (places ++ places') fun r => region r ∨ region' r := by
  intro s b h
  obtain ⟨a, s', ha, hb, hevents⟩ := events_run_bind h
  rw [hevents]
  exact (hp s a ha).append (hf a s' b hb) hdisjoint hlater

/-- A tour may follow an event that has nothing to do with groups. -/
theorem note {e : Event} (he : e.Quiet) {next : Unit → Sampler α}
    (hnext : (next ()).MakesTour src root places region) :
    (Sampler.note e next).MakesTour src root places region := by
  intro s a h
  rw [run_note] at h
  rw [events_run_note]
  exact .quiet_append (List.forall_mem_singleton.mpr he) (hnext s a h)

/-- A tour may be followed by a tour of the same parts of a pattern. -/
theorem bind_again (hp : p.MakesTour src root places region)
    (hf : ∀ a, (f a).MakesTour src root places region) :
    (p >>= f).MakesTour src root places region := by
  intro s b h
  obtain ⟨a, s', ha, hb, hevents⟩ := events_run_bind h
  rw [hevents]
  exact (hp s a ha).again (hf a s' b hb)

/-- A tour may be made a number of times, but at least once. -/
theorem repeated {μ : Type} {step : μ → Sampler (String × μ)}
    (hstep : ∀ m, (step m).MakesTour src root places region) (n : Nat) (m : μ) :
    (Sampler.repeated step (n + 1) m).MakesTour src root places region := by
  induction n generalizing m with
  | zero => exact (hstep m).bind_quiet fun _ => trivial
  | succ n ih => exact (hstep m).bind_again fun r => (ih r.2).bind_quiet fun _ => trivial

/-- A tour of what lies under a child of a node may be followed by a tour of what lies under later
children. -/
theorem bind_sibling {i : Nat} {path : Path}
    (hp : p.MakesTour src root places ((i :: path) <:+ ·))
    (hplaces : ∀ group ∈ places, (i :: path) <:+ group)
    (hf : ∀ a, (f a).MakesTour src root places' region')
    (hplaces' : ∀ group ∈ places', ∃ j, i < j ∧ (j :: path) <:+ group) :
    (p >>= f).MakesTour src root (places ++ places') fun r => (i :: path) <:+ r ∨ region' r := by
  -- What lies under an earlier child closes before what lies under a later one.
  refine hp.bind hf (fun group hgroup hbefore => ?_) fun group hgroup r hr => ?_
  · obtain ⟨j, hlt, hj⟩ := hplaces' group hgroup
    exact absurd (child_unique (hplaces group hbefore) hj) (Nat.ne_of_lt hlt)
  · obtain ⟨j, hlt, hj⟩ := hplaces' group hgroup
    have hcloses : ClosesBefore r group := ⟨path, i, j, hlt, hr, hj⟩
    exact hcloses.asymm

/-- A group is entered, makes a tour of its body, and is left. -/
theorem captured {μ : Type} {body : Sampler (String × μ)} {path : Path}
    (hbody : body.MakesTour src root places ((0 :: path) <:+ ·))
    (hplaces : ∀ group ∈ places, (0 :: path) <:+ group) (offset : UInt64) (number : Nat)
    (isNew : Bool) (remember : String → μ → μ) :
    (do
      tell (.enter path offset number isNew)
      let (text, m) ← body
      tell (.leave path text)
      pure (text, remember text m)).MakesTour src root (path :: places) (path <:+ ·) := by
  intro s a h
  rw [tell_bind, run_note] at h
  rw [tell_bind, events_run_note]
  obtain ⟨⟨text, m⟩, s', hresult, -, hevents⟩ := events_run_bind h
  have hpath : path ∉ places := by
    intro hin
    have hlength := (hplaces path hin).length_le
    rw [List.length_cons] at hlength
    omega
  have htour := (hbody s _ hresult).widen fun r hr => (List.suffix_cons 0 path).trans hr
  rw [hevents]
  exact htour.captured hpath (fun _ hr => hr) offset number isNew text

/-- The ends of a range make a tour of the range if each makes one of its node. -/
theorem ends {μ : Type} {first last : μ → Sampler (Char × μ)} {start finish : Node} {path : Path}
    (hfirst : ∀ m, (first m).MakesTour src root (start.groupPlaces (0 :: path))
      ((0 :: path) <:+ ·))
    (hlast : ∀ m, (last m).MakesTour src root (finish.groupPlaces (1 :: path))
      ((1 :: path) <:+ ·)) (offset : UInt64) (m : μ) :
    (Sampler.ends offset first last m).MakesTour src root
      (start.groupPlaces (0 :: path) ++ finish.groupPlaces (1 :: path)) (path <:+ ·) := by
  have hends : (Sampler.ends offset first last m).MakesTour src root
      (start.groupPlaces (0 :: path) ++ finish.groupPlaces (1 :: path))
      fun r => (0 :: path) <:+ r ∨ (1 :: path) <:+ r := by
    refine (hfirst m).bind_sibling (fun _ => start.suffix_of_mem_groupPlaces)
      (fun r => (hlast r.2).bind_quiet fun r' => ?_)
      fun _ hgroup => ⟨1, Nat.zero_lt_one, finish.suffix_of_mem_groupPlaces hgroup⟩
    dsimp only
    split
    · trivial
    · trivial
  exact hends.widen fun r hr =>
    hr.elim (List.suffix_cons 0 path).trans (List.suffix_cons 1 path).trans

end MakesTour

end Sampler

end PatternSampler
