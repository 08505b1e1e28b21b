import PatternSampler.CommandLine.Options
import PatternSampler.Proofs.Numerals

/-!
# Options written out as arguments

Every option can be asked for: `Options.arguments` writes the options out, each number in decimal
digits, and the arguments are read as the same options again (`Options.parse_arguments`). What
they need for that is a number of at most sixty-four bits, and a file whose name is not taken for a
flag.
-/

namespace PatternSampler

namespace Numeral

/-- A decimal digit is worth its distance from zero. -/
theorem digitIn?_of_isDigit {c : Char} (hc : c.isDigit = true) :
    digitIn? 10 c = some (c.toNat - '0'.toNat) := by
  have hrange : '0' ≤ c ∧ c ≤ '9' := by
    simpa only [Char.isDigit, Char.le_def, Bool.and_eq_true, decide_eq_true_eq] using hc
  have hvalue : c.toNat - '0'.toNat < 10 := by
    have hle : c.toNat ≤ '9'.toNat := hrange.2
    have hlast : '9'.toNat = '0'.toNat + 9 := rfl
    omega
  rw [digitIn?, digit?, if_pos hrange, Option.filter_some, decide_eq_true hvalue, if_pos rfl]

/-- Digits written in decimal make the number that they are written for. -/
theorem extend_ten (cs : List Char) (n : Nat) :
    extend 10 n (cs.map fun c => c.toNat - '0'.toNat) = Nat.ofDigitChars 10 cs n := by
  rw [extend, List.foldl_map, Nat.ofDigitChars]
  simp only [Nat.mul_comm 10]

/-- A number is denoted by its decimal digits. -/
theorem denotes_toString (n : Nat) : Denotes 10 (toString n) n := by
  have hdigits : (toString n).toList = Nat.toDigits 10 n := by
    rw [Nat.toString_eq_repr, Nat.repr, String.toList_ofList]
  refine ⟨Nat.toDigits 10 n, (Nat.toDigits 10 n).map fun c => c.toNat - '0'.toNat, .inl hdigits,
    ?_, ?_, ?_⟩
  · rw [Spells, List.map_map]
    refine List.map_congr_left fun c hc => digitIn?_of_isDigit ?_
    exact Nat.isDigit_of_mem_toDigits (by decide) (by decide) hc
  · exact fun h => Nat.toDigits_ne_nil (List.map_eq_nil_iff.mp h)
  · rw [extend_ten, Nat.ofDigitChars_ten_toDigits]

end Numeral

namespace CommandLine

/-- The value of a flag may be written in decimal digits. -/
theorem flagValue_toString (flag : String) {n : Nat} (hn : n ≤ Numeral.max64) :
    flagValue flag (toString n) = .ok n := by
  rw [flagValue, (Numeral.read_eq_ok_iff (by decide)).mpr ⟨Numeral.denotes_toString n, hn⟩]
  rfl

/-- A flag and its value in decimal digits enter the value into the options. -/
theorem Command.parseFrom_value {flag : String} (hflag : flag ∈ valueFlags) {n : Nat}
    (hn : n ≤ Numeral.max64) (o : Options) (args : List String) :
    parseFrom o (flag :: toString n :: args) = parseFrom (o.set flag n) args := by
  rw [parseFrom, if_pos hflag, flagValue_toString flag hn]

/-- All flags start with a dash, which stands for standard input by itself. -/
theorem startsWith_of_flag :
    ∀ flag ∈ ["-", "-h", "--help"] ++ valueFlags, flag.startsWith "-" = true := by
  decide +kernel

namespace Options

theorem set_count (o : Options) (n : Nat) : o.set "-n" n = { o with count := n } := by
  rw [set, if_pos rfl]

theorem set_seed (o : Options) (n : Nat) :
    o.set "--seed" n = { o with seed := some (UInt64.ofNat n) } := by
  rw [set, if_neg (by decide), if_pos rfl]

theorem set_maxDepth (o : Options) (n : Nat) :
    o.set "--max-depth" n = { o with maxDepth := some n } := by
  rw [set, if_neg (by decide), if_neg (by decide)]

/-- Options can be written out as arguments if their numbers are machine words and their file is not
taken for a flag. -/
structure IsWritable (o : Options) : Prop where
  count_le : o.count ≤ Numeral.max64
  maxDepth_le : ∀ n ∈ o.maxDepth, n ≤ Numeral.max64
  not_startsWith : ∀ name ∈ o.file, name.startsWith "-" = false

/-- A flag with a value, if there is one. -/
def flagWith (flag : String) : Option Nat → List String
  | none => []
  | some n => [flag, toString n]

/-- Options as arguments. -/
def arguments (o : Options) : List String :=
  "-n" :: toString o.count :: (flagWith "--seed" (o.seed.map UInt64.toNat) ++
    (flagWith "--max-depth" o.maxDepth ++ [o.file.getD "-"]))

/-- A seed that is written out is entered into options that have none. -/
theorem parseFrom_seed {o : Options} (hnone : o.seed = none) (seed : Option UInt64)
    (args : List String) :
    Command.parseFrom o (flagWith "--seed" (seed.map UInt64.toNat) ++ args) =
      Command.parseFrom { o with seed } args := by
  cases seed with
  | none =>
    have hsame : { o with seed := none } = o := by rw [← hnone]
    rw [hsame]
    rfl
  | some seed =>
    have hword : seed.toNat ≤ Numeral.max64 := Nat.le_of_lt_succ seed.toNat_lt
    have hread := @Command.parseFrom_value "--seed" (by decide) _ hword o args
    rw [set_seed, UInt64.ofNat_toNat] at hread
    exact hread

/-- A limit on nesting that is written out is entered into options that have none. -/
theorem parseFrom_maxDepth {o : Options} (hnone : o.maxDepth = none) {maxDepth : Option Nat}
    (hword : ∀ n ∈ maxDepth, n ≤ Numeral.max64) (args : List String) :
    Command.parseFrom o (flagWith "--max-depth" maxDepth ++ args) =
      Command.parseFrom { o with maxDepth } args := by
  cases maxDepth with
  | none =>
    have hsame : { o with maxDepth := none } = o := by rw [← hnone]
    rw [hsame]
    rfl
  | some n =>
    have hread := @Command.parseFrom_value "--max-depth" (by decide) n (hword n rfl) o args
    rw [set_maxDepth] at hread
    exact hread

/-- The last argument names the file, or standard input. -/
theorem parseFrom_file {o : Options} {file : Option String}
    (hfile : ∀ name ∈ file, name.startsWith "-" = false) :
    Command.parseFrom o [file.getD "-"] = .ok (.sample { o with file }) := by
  cases file with
  | none =>
    rw [Option.getD_none, Command.parseFrom, if_neg (by decide), if_neg (by decide), if_pos rfl,
      Command.parseFrom]
  | some name =>
    have hname : name.startsWith "-" = false := hfile name rfl
    have hnotFlag : name ∉ ["-", "-h", "--help"] ++ valueFlags := fun hflag =>
      Bool.noConfusion (hname.symm.trans (startsWith_of_flag name hflag))
    simp only [List.mem_append, List.mem_cons, List.not_mem_nil, or_false, not_or] at hnotFlag
    obtain ⟨⟨hdash, hhelp⟩, hvalue⟩ := hnotFlag
    rw [Option.getD_some, Command.parseFrom, if_neg hvalue, if_neg (not_or.mpr hhelp),
      if_neg hdash, hname, if_neg Bool.false_ne_true, Command.parseFrom]

/-- Options that are written out are read again. -/
theorem parse_arguments {o : Options} (h : o.IsWritable) :
    Command.parse o.arguments = .ok (.sample o) := by
  rw [Command.parse, arguments, Command.parseFrom_value (by decide) h.count_le, set_count,
    parseFrom_seed rfl, parseFrom_maxDepth rfl h.maxDepth_le, parseFrom_file h.not_startsWith]

end Options

end CommandLine

end PatternSampler
