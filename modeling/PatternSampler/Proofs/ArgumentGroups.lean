import Mathlib.Data.List.Forall2
import Mathlib.Data.List.Induction
import PatternSampler.CommandLine.Response
import PatternSampler.Proofs.Arguments
import PatternSampler.Proofs.Digits

/-!
# Arguments in groups

Arguments fall into groups, read from left to right: a flag that takes a value goes with the
argument after it, whatever that is, and every other argument stands by itself (`groups`). A group
sets an option, asks for help or is at fault, and which of these it does depends on nothing else
(`Group.Sets`, `Group.AsksForHelp`, `Group.Faulty`).

Reading the arguments is reading their groups one after the other (`parseFrom_eq`). Groups that set
options leave each option at its last setting (`foldl_apply`), so their order counts only among
those for the same option (`ofSettings_eq_of_sameOrder`). The first group that sets none decides
what the arguments ask for, and nothing is read then. `parse_groups` says all this of any arguments.
-/

namespace PatternSampler.CommandLine

/-- A flag with the argument after it, if there is one, or an argument that is no such flag. -/
inductive Group where
  | flag (name : String) (known : name ∈ valueFlags) (value : Option String)
  | single (arg : String) (other : arg ∉ valueFlags)
  deriving DecidableEq

/-- Arguments in groups. -/
def groups : List String → List Group
  | [] => []
  | arg :: args =>
    if h : arg ∈ valueFlags then
      match args with
      | [] => [.flag arg h none]
      | value :: args => .flag arg h (some value) :: groups args
    else .single arg h :: groups args

/-- What an option is set to. The name of a file is missing where it is reset to standard input. -/
inductive Setting where
  | number (flag : String) (known : flag ∈ valueFlags) (n : UInt64)
  | file (name : Option String)

/-- The flag of an option. Only the file has none. -/
def Setting.flag? : Setting → Option String
  | .number flag .. => some flag
  | .file _ => none

namespace Group

/-- The arguments of a group. -/
def toArgs : Group → List String
  | .flag name _ value => name :: value.toList
  | .single arg _ => [arg]

/-- The flag of the option that a group is about. Only the file has none. -/
def flag? : Group → Option String
  | .flag name .. => some name
  | .single .. => none

/-- A group sets an option: a flag with a numeral of sixty-four bits, the name of a file, or a dash
for standard input. -/
inductive Sets : Group → Setting → Prop where
  | number {flag value : String} {known : flag ∈ valueFlags} {digits : List Nat} {n : UInt64}
      (h : Numeral.IsNumeral 10 value digits) (hn : Numeral.value 10 digits = n.toNat) :
      Sets (.flag flag known (some value)) (.number flag known n)
  | stdin {other : "-" ∉ valueFlags} : Sets (.single "-" other) (.file none)
  | file {name : String} {other : name ∉ valueFlags} (h : name.startsWith "-" = false) :
      Sets (.single name other) (.file (some name))

/-- A group asks for help. -/
inductive AsksForHelp : Group → Prop where
  | short {other : "-h" ∉ valueFlags} : AsksForHelp (.single "-h" other)
  | long {other : "--help" ∉ valueFlags} : AsksForHelp (.single "--help" other)

/-- A group is at fault: a flag has no value or none that is a numeral of sixty-four bits, or an
argument looks like a flag and is none. -/
inductive Faulty : Group → UsageError → Prop where
  | missingValue {flag : String} {known : flag ∈ valueFlags} :
      Faulty (.flag flag known none) (.missingValue flag)
  | badValue {flag value : String} {known : flag ∈ valueFlags} {fault : NumeralFault}
      (h : ∀ digits, Numeral.IsNumeral 10 value digits → 2 ^ 64 - 1 < Numeral.value 10 digits)
      (hread : Numeral.read 10 Numeral.max64 value = .error fault) :
      Faulty (.flag flag known (some value)) (.badValue flag value fault)
  | unknownOption {arg : String} {other : arg ∉ valueFlags} (h : arg.startsWith "-" = true)
      (hne : arg ∉ ["-", "-h", "--help"]) : Faulty (.single arg other) (.unknownOption arg)

end Group

/-- The number that a setting gives to a flag. -/
def Setting.numberFor? (flag : String) : Setting → Option UInt64
  | .number name _ n => if name = flag then some n else none
  | .file _ => none

/-- The file that a setting names. Standard input has no name. -/
def Setting.file? : Setting → Option (Option String)
  | .number .. => none
  | .file name => some name

/-- The last of what settings hold. -/
def lastOf {α : Type} (value? : Setting → Option α) (settings : List Setting) : Option α :=
  (settings.filterMap value?).getLast?

/-- The options with each at its last setting. -/
def Options.ofSettings (settings : List Setting) : Options where
  count := ((lastOf (·.numberFor? "-n") settings).map UInt64.toNat).getD 1
  seed := lastOf (·.numberFor? "--seed") settings
  maxDepth := (lastOf (·.numberFor? "--max-depth") settings).map UInt64.toNat
  file := (lastOf (·.file?) settings).join

/-- Two lists of groups have the same groups for each option, in the same order. Only the order
among groups for different options may differ. -/
def SameOrder (gs gs' : List Group) : Prop :=
  ∀ flag?, gs.filter (·.flag? = flag?) = gs'.filter (·.flag? = flag?)

/-! ### Groups and arguments -/

/-- The arguments of the groups are the arguments that were grouped. -/
theorem flatMap_groups (args : List String) : (groups args).flatMap Group.toArgs = args := by
  fun_induction groups args with
  | case1 => rfl
  | case2 arg h => rfl
  | case3 arg h value args ih =>
    rw [List.flatMap_cons, ih]
    rfl
  | case4 arg args h ih =>
    rw [List.flatMap_cons, ih]
    rfl

/-- Groups that set options are the groups of their arguments. -/
theorem groups_flatMap {gs : List Group} (h : ∀ g ∈ gs, ∃ s, g.Sets s) :
    groups (gs.flatMap Group.toArgs) = gs := by
  induction gs with
  | nil => rfl
  | cons g gs ih =>
    obtain ⟨⟨s, hs⟩, hrest⟩ := List.forall_mem_cons.mp h
    rw [List.flatMap_cons]
    cases hs with
    | @number flag value known digits n hdigits hn =>
      rw [Group.toArgs, Option.toList_some, List.cons_append, List.cons_append, List.nil_append,
        groups, dif_pos known]
      dsimp only
      rw [ih hrest]
    | @stdin other =>
      rw [Group.toArgs, List.cons_append, List.nil_append]
      unfold groups
      rw [dif_neg other, ih hrest]
    | @file name other hname =>
      rw [Group.toArgs, List.cons_append, List.nil_append]
      unfold groups
      rw [dif_neg other, ih hrest]

/-! ### Reading groups -/

/-- What comes of a group when it is read. -/
inductive Verdict where
  | set (setting : Setting)
  | help
  | fail (error : UsageError)

/-- What comes of reading a group. -/
def Group.verdict : Group → Verdict
  | .flag name _ none => .fail (.missingValue name)
  | .flag name known (some value) =>
    match flagValue name value with
    | .ok n => .set (.number name known (UInt64.ofNat n))
    | .error e => .fail e
  | .single arg _ =>
    if arg = "-h" ∨ arg = "--help" then .help
    else if arg = "-" then .set (.file none)
    else if arg.startsWith "-" then .fail (.unknownOption arg)
    else .set (.file (some arg))

/-- Options with one more setting. -/
def Options.apply (o : Options) : Setting → Options
  | .number flag _ n => o.set flag n.toNat
  | .file name => { o with file := name }

/-- What some groups ask for, given the options set before them. -/
def Command.readFrom (o : Options) : List Group → Except UsageError Command
  | [] => .ok (.sample o)
  | g :: gs =>
    match g.verdict with
    | .set setting => readFrom (o.apply setting) gs
    | .help => .ok .help
    | .fail e => .error e

/-- The value of a flag is a number of sixty-four bits. -/
theorem le_max64_of_flagValue {flag value : String} {n : Nat} (h : flagValue flag value = .ok n) :
    n ≤ Numeral.max64 := by
  unfold flagValue at h
  cases hread : Numeral.read 10 Numeral.max64 value with
  | error fault =>
    rw [hread] at h
    cases h
  | ok m =>
    rw [hread] at h
    cases h
    exact ((Numeral.read_eq_ok_iff (by decide)).mp hread).2

/-- Arguments are read group by group. -/
theorem parseFrom_eq (o : Options) (args : List String) :
    Command.parseFrom o args = Command.readFrom o (groups args) := by
  fun_induction groups args generalizing o with
  | case1 => rfl
  | case2 arg h =>
    rw [Command.parseFrom, if_pos h]
    rfl
  | case3 arg h value args ih =>
    rw [Command.parseFrom, if_pos h, Command.readFrom, Group.verdict]
    cases hvalue : flagValue arg value with
    | ok n =>
      have hle := le_max64_of_flagValue hvalue
      have hword : (UInt64.ofNat n).toNat = n := UInt64.toNat_ofNat_of_lt' (Nat.lt_succ_of_le hle)
      dsimp only
      rw [Options.apply, hword]
      exact ih (o.set arg n)
    | error e => rfl
  | case4 arg args h ih =>
    unfold Command.parseFrom
    rw [if_neg h, Command.readFrom, Group.verdict]
    split
    · rfl
    · split
      · exact ih { o with file := none }
      · split
        · rfl
        · exact ih { o with file := some arg }

/-- A value is read if it is a numeral of sixty-four bits. -/
theorem read_max64_iff {value : String} {n : Nat} :
    Numeral.read 10 Numeral.max64 value = .ok n ↔
      (∃ digits, Numeral.IsNumeral 10 value digits ∧ Numeral.value 10 digits = n) ∧
        n ≤ Numeral.max64 := by
  rw [Numeral.read_eq_ok_iff (by decide), Numeral.denotes_iff (by decide)]

/-- A text is no numeral of sixty-four bits if reading finds fault with it. -/
theorem lt_value_of_read {value : String} {fault : NumeralFault}
    (hread : Numeral.read 10 Numeral.max64 value = .error fault) (digits : List Nat)
    (h : Numeral.IsNumeral 10 value digits) : 2 ^ 64 - 1 < Numeral.value 10 digits := by
  refine Nat.lt_of_not_le fun hle => ?_
  have hok := read_max64_iff.mpr ⟨⟨digits, h, rfl⟩, hle⟩
  exact nomatch hread.symm.trans hok

/-- What does not start with a dash is none of the arguments that have a meaning of their own. -/
theorem not_mem_of_startsWith {arg : String} (h : arg.startsWith "-" = false) :
    arg ∉ ["-", "-h", "--help"] := by
  intro hmem
  have hdash := startsWith_of_flag arg (List.mem_append_left valueFlags hmem)
  exact Bool.noConfusion (h.symm.trans hdash)

namespace Group

variable {g : Group}

/-- A group that sets an option is read as its setting. -/
theorem Sets.verdict_eq {setting : Setting} (h : g.Sets setting) : g.verdict = .set setting := by
  cases h with
  | @number flag value known digits n hdigits hn =>
    have hle : n.toNat ≤ Numeral.max64 := Nat.le_of_lt_succ n.toNat_lt
    have hread : Numeral.read 10 Numeral.max64 value = .ok n.toNat :=
      read_max64_iff.mpr ⟨⟨digits, hdigits, hn⟩, hle⟩
    rw [verdict, flagValue, hread, Except.mapError]
    dsimp only
    rw [UInt64.ofNat_toNat]
  | stdin => rfl
  | @file name other hname =>
    have hne := not_mem_of_startsWith hname
    simp only [List.mem_cons, List.not_mem_nil, or_false, not_or] at hne
    obtain ⟨hdash, hhelp⟩ := hne
    rw [verdict, if_neg (not_or.mpr hhelp), if_neg hdash, hname, if_neg Bool.false_ne_true]

/-- A group that asks for help is read as that. -/
theorem AsksForHelp.verdict_eq (h : g.AsksForHelp) : g.verdict = .help := by
  cases h with
  | short => rfl
  | long => rfl

/-- A group at fault is read as its fault. -/
theorem Faulty.verdict_eq {e : UsageError} (h : g.Faulty e) : g.verdict = .fail e := by
  cases h with
  | missingValue => rfl
  | badValue hnone hread => rw [verdict, flagValue, hread, Except.mapError]
  | @unknownOption arg other hstarts hne =>
    simp only [List.mem_cons, List.not_mem_nil, or_false, not_or] at hne
    obtain ⟨hdash, hhelp⟩ := hne
    rw [verdict, if_neg (not_or.mpr hhelp), if_neg hdash, if_pos hstarts]

/-- Every group sets an option, asks for help or is at fault. -/
theorem sets_or_asksForHelp_or_faulty (g : Group) :
    (∃ setting, g.Sets setting) ∨ g.AsksForHelp ∨ ∃ e, g.Faulty e := by
  cases g with
  | flag name known value =>
    cases value with
    | none => exact .inr (.inr ⟨_, .missingValue⟩)
    | some value =>
      cases hread : Numeral.read 10 Numeral.max64 value with
      | ok n =>
        obtain ⟨⟨digits, hdigits, hvalue⟩, hle⟩ := read_max64_iff.mp hread
        have hword : (UInt64.ofNat n).toNat = n :=
          UInt64.toNat_ofNat_of_lt' (Nat.lt_succ_of_le hle)
        exact .inl ⟨_, .number hdigits (hvalue.trans hword.symm)⟩
      | error fault => exact .inr (.inr ⟨_, .badValue (lt_value_of_read hread) hread⟩)
  | single arg other =>
    by_cases hmem : arg ∈ ["-", "-h", "--help"]
    · simp only [List.mem_cons, List.not_mem_nil, or_false] at hmem
      obtain rfl | rfl | rfl := hmem
      · exact .inl ⟨_, .stdin⟩
      · exact .inr (.inl .short)
      · exact .inr (.inl .long)
    · cases hstarts : arg.startsWith "-" with
      | false => exact .inl ⟨_, .file hstarts⟩
      | true => exact .inr (.inr ⟨_, .unknownOption hstarts hmem⟩)

/-- A group sets one option, to one value. -/
theorem Sets.unique {s s' : Setting} (h : g.Sets s) (h' : g.Sets s') : s = s' :=
  Verdict.set.inj (h.verdict_eq.symm.trans h'.verdict_eq)

/-- A group is about the option that it sets. -/
theorem Sets.flag?_eq {s : Setting} (h : g.Sets s) : g.flag? = s.flag? := by
  cases h with
  | number => rfl
  | stdin => rfl
  | file => rfl

end Group

variable {gs before behind : List Group} {settings : List Setting}

/-- Groups that set options are read one after the other. -/
theorem readFrom_append (h : List.Forall₂ Group.Sets before settings) (o : Options) :
    Command.readFrom o (before ++ behind) =
      Command.readFrom (settings.foldl Options.apply o) behind := by
  induction h generalizing o with
  | nil => rfl
  | cons hg _ ih =>
    rw [List.cons_append, Command.readFrom, hg.verdict_eq]
    exact ih _

/-- Every group of some sets an option, or one of them is the first that sets none. -/
theorem exists_settings_or_first (gs : List Group) :
    (∃ settings, List.Forall₂ Group.Sets gs settings) ∨
      ∃ before g behind settings, gs = before ++ g :: behind ∧
        List.Forall₂ Group.Sets before settings ∧ (g.AsksForHelp ∨ ∃ e, g.Faulty e) := by
  induction gs with
  | nil => exact .inl ⟨[], .nil⟩
  | cons g gs ih =>
    rcases g.sets_or_asksForHelp_or_faulty with ⟨s, hs⟩ | hnot
    · rcases ih with ⟨settings, hall⟩ | ⟨before, g', behind, settings, rfl, hall, hnot⟩
      · exact .inl ⟨s :: settings, .cons hs hall⟩
      · exact .inr ⟨g :: before, g', behind, s :: settings, rfl, .cons hs hall, hnot⟩
    · exact .inr ⟨[], g, gs, [], rfl, .nil, hnot⟩

/-! ### Last settings -/

/-- What is held by a setting behind others is the last of it. -/
theorem lastOf_concat {α : Type} (value? : Setting → Option α) (settings : List Setting)
    (s : Setting) : lastOf value? (settings ++ [s]) = (value? s).or (lastOf value? settings) := by
  rw [lastOf, List.filterMap_append]
  cases h : value? s with
  | none =>
    rw [List.filterMap_cons_none h, List.filterMap_nil, List.append_nil, Option.none_or, lastOf]
  | some a =>
    rw [List.filterMap_cons_some h, List.filterMap_nil, List.getLast?_concat, Option.some_or]

namespace Options

/-- A setting behind others counts. -/
theorem ofSettings_concat (settings : List Setting) (s : Setting) :
    ofSettings (settings ++ [s]) = (ofSettings settings).apply s := by
  simp only [ofSettings, lastOf_concat]
  cases s with
  | file name => rfl
  | number flag known n =>
    simp only [valueFlags, List.mem_cons, List.not_mem_nil, or_false] at known
    obtain rfl | rfl | rfl := known
    · rw [apply, set_count]
      rfl
    · rw [apply, set_seed, UInt64.ofNat_toNat]
      rfl
    · rw [apply, set_maxDepth]
      rfl

/-- Settings that are entered one after the other leave each option at the last. -/
theorem foldl_apply (settings : List Setting) : settings.foldl apply { } = ofSettings settings := by
  induction settings using List.reverseRecOn with
  | nil => rfl
  | append_singleton settings s ih =>
    rw [List.foldl_concat, ih, ofSettings_concat]

end Options

/-- Groups that are taken from others set options if those do. -/
theorem exists_forall₂_sets {gs : List Group} (h : ∀ g ∈ gs, ∃ s, g.Sets s) :
    ∃ settings, List.Forall₂ Group.Sets gs settings := by
  induction gs with
  | nil => exact ⟨[], .nil⟩
  | cons g gs ih =>
    obtain ⟨⟨s, hs⟩, hrest⟩ := List.forall_mem_cons.mp h
    obtain ⟨settings, hsettings⟩ := ih hrest
    exact ⟨s :: settings, .cons hs hsettings⟩

/-- Each of some groups sets an option if they do in a row. -/
theorem exists_sets_of_forall₂ (h : List.Forall₂ Group.Sets gs settings) :
    ∀ g ∈ gs, ∃ s, g.Sets s := by
  induction h with
  | nil => nofun
  | cons hg _ ih => exact List.forall_mem_cons.mpr ⟨⟨_, hg⟩, ih⟩

/-- The settings for an option are those of the groups for it. -/
theorem forall₂_sets_filter (h : List.Forall₂ Group.Sets gs settings) (flag? : Option String) :
    List.Forall₂ Group.Sets (gs.filter (·.flag? = flag?)) (settings.filter (·.flag? = flag?)) := by
  refine List.rel_filter (fun g s hg => ?_) h
  dsimp only
  rw [hg.flag?_eq]

/-- What settings hold for an option is held by those for that option. -/
theorem lastOf_filter {α : Type} {value? : Setting → Option α} {flag? : Option String}
    (h : ∀ s, s.flag? ≠ flag? → value? s = none) (settings : List Setting) :
    lastOf value? (settings.filter (·.flag? = flag?)) = lastOf value? settings := by
  rw [lastOf, lastOf, List.filterMap_filter]
  congr 2
  funext s
  by_cases hs : s.flag? = flag?
  · rw [if_pos (decide_eq_true hs)]
  · rw [if_neg (by simpa using hs), h s hs]

/-- The numbers for a flag are held by the settings for it. -/
theorem numberFor?_eq_none {flag : String} (s : Setting) (h : s.flag? ≠ some flag) :
    s.numberFor? flag = none := by
  cases s with
  | number name known n => exact if_neg fun hname => h (congrArg some hname)
  | file name => rfl

/-- The files are held by the settings without a flag. -/
theorem file?_eq_none (s : Setting) (h : s.flag? ≠ none) : s.file? = none := by
  cases s with
  | number name known n => rfl
  | file name => exact absurd rfl h

/-- Groups with the same order for each option leave it at the same setting. -/
theorem ofSettings_eq_of_sameOrder {gs' : List Group} {settings' : List Setting}
    (h : List.Forall₂ Group.Sets gs settings) (h' : List.Forall₂ Group.Sets gs' settings')
    (hsame : SameOrder gs' gs) : Options.ofSettings settings' = Options.ofSettings settings := by
  have hlast {α : Type} {value? : Setting → Option α} {flag? : Option String}
      (hnone : ∀ s, s.flag? ≠ flag? → value? s = none) :
      lastOf value? settings' = lastOf value? settings := by
    have hfilter := forall₂_sets_filter h' flag?
    rw [hsame] at hfilter
    have hsettings : settings'.filter (·.flag? = flag?) = settings.filter (·.flag? = flag?) :=
      List.right_unique_forall₂' (fun _ _ _ hs hs' => hs.unique hs') hfilter
        (forall₂_sets_filter h flag?)
    rw [← lastOf_filter hnone settings', ← lastOf_filter hnone settings, hsettings]
  simp only [Options.ofSettings, hlast numberFor?_eq_none, hlast file?_eq_none]

/-- A group is among others that have the same groups for each option. -/
theorem SameOrder.subset {gs' : List Group} (h : SameOrder gs' gs) : gs' ⊆ gs := by
  intro g hg
  have hmem : g ∈ gs'.filter (·.flag? = g.flag?) := List.mem_filter.mpr ⟨hg, decide_eq_true rfl⟩
  rw [h] at hmem
  exact (List.mem_filter.mp hmem).1

/-! ### What arguments ask for -/

/-- Arguments whose groups set options ask for samples with each option at its last setting. -/
theorem parse_of_sets {args : List String}
    (h : List.Forall₂ Group.Sets (groups args) settings) :
    Command.parse args = .ok (.sample (.ofSettings settings)) := by
  have hread := @readFrom_append (groups args) [] settings h { }
  rw [List.append_nil, Options.foldl_apply] at hread
  rw [Command.parse, parseFrom_eq, hread]
  rfl

/-- The first group that sets no option decides what arguments ask for. -/
theorem parse_of_first {args : List String} {g : Group}
    (hargs : groups args = before ++ g :: behind)
    (h : List.Forall₂ Group.Sets before settings) :
    Command.parse args = Command.readFrom (.ofSettings settings) (g :: behind) := by
  rw [Command.parse, parseFrom_eq, hargs, readFrom_append h, Options.foldl_apply]

/-- What arguments ask for, group by group. Where every group sets an option, samples are asked for,
with each option at its last setting, and of a tree from the last file, or from standard input; the
same options come of the groups in any other order that keeps those for one option in order. Else
the first group that sets none decides. If it asks for help, the run says how the program is called,
and succeeds. If it is at fault, the run fails with a report of the fault and gives out nothing. In
neither case is there anything to read. -/
theorem parse_groups (args : List String) :
    (groups args).flatMap Group.toArgs = args ∧
    (∀ settings, List.Forall₂ Group.Sets (groups args) settings →
      Command.parse args = .ok (.sample (.ofSettings settings)) ∧
      toRead args = some (Options.ofSettings settings).file ∧
      ∀ gs, SameOrder gs (groups args) →
        Command.parse (gs.flatMap Group.toArgs) = .ok (.sample (.ofSettings settings))) ∧
    (∀ before g behind settings, groups args = before ++ g :: behind →
      List.Forall₂ Group.Sets before settings →
      (g.AsksForHelp → toRead args = none ∧
        ∀ inputs entropy, respond args inputs entropy =
          ⟨0, "Usage: regex-sample [-n COUNT] [--seed N] [--max-depth N] [FILE|-]\n", ""⟩) ∧
      ∀ e, g.Faulty e → toRead args = none ∧
        ∀ inputs entropy, respond args inputs entropy = ⟨1, "", "error: " ++ e.message ++ "\n"⟩) ∧
    ((∃ settings, List.Forall₂ Group.Sets (groups args) settings) ∨
      ∃ before g behind settings, groups args = before ++ g :: behind ∧
        List.Forall₂ Group.Sets before settings ∧ (g.AsksForHelp ∨ ∃ e, g.Faulty e)) := by
  refine ⟨flatMap_groups args, fun settings h => ⟨parse_of_sets h, ?_, fun gs hsame => ?_⟩,
    fun before g behind settings hargs h => ⟨fun hhelp => ?_, fun e hfault => ?_⟩,
    exists_settings_or_first _⟩
  · rw [toRead, parse_of_sets h]
  · have hsets : ∀ g ∈ gs, ∃ s, g.Sets s := fun g hg =>
      exists_sets_of_forall₂ h g (hsame.subset hg)
    obtain ⟨settings', h'⟩ := exists_forall₂_sets hsets
    rw [← ofSettings_eq_of_sameOrder h h' hsame]
    exact parse_of_sets (by rwa [groups_flatMap hsets])
  · have hparse : Command.parse args = .ok .help := by
      rw [parse_of_first hargs h, Command.readFrom, hhelp.verdict_eq]
    have husage : usage ++ "\n" =
        "Usage: regex-sample [-n COUNT] [--seed N] [--max-depth N] [FILE|-]\n" := by decide
    refine ⟨by rw [toRead, hparse], fun inputs entropy => ?_⟩
    rw [respond, hparse, ← husage]
    rfl
  · have hparse : Command.parse args = .error e := by
      rw [parse_of_first hargs h, Command.readFrom, hfault.verdict_eq]
    refine ⟨by rw [toRead, hparse], fun inputs entropy => ?_⟩
    rw [respond, hparse]
    rfl

/-- Of two seeds the last counts and a dash takes back the name of a file, in either order of seeds
and files. A flag takes a request for help as its value, and finds fault with it before the file in
front of it is read. -/
theorem parse_groups_lastSeed :
    let o : Options := { seed := some 8 }
    Command.parse ["tree", "--seed", "+7", "-", "--seed", "8"] = .ok (.sample o) ∧
      Command.parse ["--seed", "+7", "tree", "--seed", "8", "-"] = .ok (.sample o) ∧
      toRead ["tree", "-n", "-h", "--help"] = none ∧
      ∀ inputs entropy, (respond ["tree", "-n", "-h", "--help"] inputs entropy).stdout = "" := by
  intro o
  have hseed : "--seed" ∈ valueFlags := by decide
  have hn : "-n" ∈ valueFlags := by decide
  have hseven : Numeral.IsNumeral 10 "+7" [7] :=
    ⟨by decide, by decide, ['7'], .inr rfl, .cons (by decide) .nil⟩
  have height : Numeral.IsNumeral 10 "8" [8] :=
    ⟨by decide, by decide, ['8'], .inl rfl, .cons (by decide) .nil⟩
  have htree : Group.Sets (.single "tree" (by decide)) (.file (some "tree")) :=
    .file (by decide +kernel)
  obtain ⟨-, hread, -⟩ := parse_groups ["tree", "--seed", "+7", "-", "--seed", "8"]
  obtain ⟨hparse, -, hsame⟩ := hread
    [.file (some "tree"), .number "--seed" hseed 7, .file none, .number "--seed" hseed 8]
    (.cons htree (.cons (.number hseven rfl) (.cons .stdin (.cons (.number height rfl) .nil))))
  have hother : SameOrder
      [.flag "--seed" hseed (some "+7"), .single "tree" (by decide),
        .flag "--seed" hseed (some "8"), .single "-" (by decide)]
      (groups ["tree", "--seed", "+7", "-", "--seed", "8"]) := by
    have hgroups : groups ["tree", "--seed", "+7", "-", "--seed", "8"] =
        [.single "tree" (by decide), .flag "--seed" hseed (some "+7"), .single "-" (by decide),
          .flag "--seed" hseed (some "8")] := rfl
    intro flag?
    rw [hgroups]
    by_cases hfile : none = flag?
    · rw [← hfile]
      rfl
    · by_cases hflag : some "--seed" = flag?
      · rw [← hflag]
        rfl
      · simp [Group.flag?, hfile, hflag]
  obtain ⟨-, -, hfirst, -⟩ := parse_groups ["tree", "-n", "-h", "--help"]
  obtain ⟨-, hfault⟩ := hfirst [.single "tree" (by decide)] (.flag "-n" hn (some "-h"))
    [.single "--help" (by decide)] [.file (some "tree")] rfl (.cons htree .nil)
  have hvalue : Numeral.read 10 Numeral.max64 "-h" = .error .badDigit := by rfl
  obtain ⟨hnothing, hrespond⟩ := hfault _ (.badValue (lt_value_of_read hvalue) hvalue)
  refine ⟨hparse, hsame _ hother, hnothing, fun inputs entropy => ?_⟩
  rw [hrespond]

end PatternSampler.CommandLine
