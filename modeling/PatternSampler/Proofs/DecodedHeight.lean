import PatternSampler.Proofs.Levels
import PatternSampler.Proofs.NodeText
import PatternSampler.Proofs.Output
import PatternSampler.Proofs.Recall

/-!
# Trees that are read are not too deep

Two limits are kept apart: reading counts brackets, of arrays and of members of no use as well, and
a walk counts nodes. A tree is no higher than its value is nested (`Node.height_le_nesting`), so the
limit on brackets is also one on the height of what is read (`Node.height_ofText`), and a limit on
nesting that is at least as large is never met (`not_isTooDeep_of_ofText`). No smaller limit would
do: `Node.grouped` is a tree that is met by it and can be read (`exists_ofText_isTooDeep`).
-/

namespace PatternSampler

namespace Node

mutual

/-- A tree is no higher than its value is nested. -/
theorem height_le_nesting (n : Node) : n.height ≤ n.nesting := by
  match n with
  | alternate _ l r | quantified _ l r | range _ l r =>
    have hl := height_le_nesting l
    have hr := height_le_nesting r
    rw [height, nesting]
    omega
  | group _ _ b => exact Nat.succ_le_succ (height_le_nesting b)
  | sequence _ b | charset _ b _ =>
    have hb := heightAll_le_nestingAll b
    rw [height, nesting]
    omega
  | quantifier .. | literal .. | numeric .. | backReference .. | control .. | token ..
  | unknown .. => exact Nat.le_refl 1

/-- Some trees are no higher than their values are nested. -/
theorem heightAll_le_nestingAll (ns : List Node) : heightAll ns ≤ nestingAll ns := by
  match ns with
  | [] => exact Nat.le_refl 0
  | n :: ns =>
    have hn := height_le_nesting n
    have hns := heightAll_le_nestingAll ns
    rw [heightAll, nestingAll]
    omega

end

/-- A tree that is read from a text is no higher than a text may be nested. -/
theorem height_ofText {text : String} {root : Node} (h : Node.ofText text = .ok root) :
    root.height ≤ 127 :=
  Nat.le_trans root.height_le_nesting (nesting_ofText h)

end Node

variable {σ : Type}

/-- No tree that is read from a text is too deep for a limit that a text could reach. -/
theorem not_isTooDeep_of_mem_successive {text : String} {root : Node}
    (h : Node.ofText text = .ok root) (src : Source σ) {cfg : Config} (hlimit : 127 ≤ cfg.maxDepth)
    {n : Nat} {s : σ} {o : Outcome σ String} (ho : o ∈ successive src cfg root n s) :
    ¬o.IsTooDeep := by
  obtain ⟨s', rfl⟩ := exists_run_of_mem_successive ho
  exact not_isTooDeep_of_height_le src (Nat.le_trans (Node.height_ofText h) hlimit) s'

section Grouped

open Sampler

/-- A letter in a number of groups. -/
def Node.grouped : Nat → Node
  | 0 => .literal { } 'a' false
  | n + 1 => .group { } .plain (grouped n)

/-- The value of a letter in groups is nested as deep as there are nodes. -/
theorem Node.nesting_grouped (n : Nat) : (grouped n).nesting = n + 1 := by
  induction n with
  | zero => rfl
  | succ n ih => rw [grouped, nesting, ih]

/-- A letter in groups is too deep if there are as many nodes above it as the limit says. -/
theorem isTooDeep_emit_grouped {cfg : Config} {n depth : Nat} (h : cfg.maxDepth ≤ depth + n)
    (src : Source σ) (path : Path) (p : Page) (s : σ) :
    ((emit cfg (.grouped n) path depth p).run src s).IsTooDeep := by
  induction n generalizing path depth with
  | zero =>
    have hdepth : cfg.maxDepth ≤ depth := h
    rw [emit_eq_tooDeep hdepth]
    exact ⟨_, _, rfl⟩
  | succ n ih =>
    by_cases hdepth : cfg.maxDepth ≤ depth
    · rw [emit_eq_tooDeep hdepth]
      exact ⟨_, _, rfl⟩
    -- A group has one node more above its body than above itself, and one less below it.
    have hbody : cfg.maxDepth ≤ depth + 1 + n := by omega
    obtain ⟨offset, limit, hresult⟩ := ih hbody (0 :: path)
    refine ⟨offset, limit, ?_⟩
    rw [Node.grouped]
    unfold emit
    rw [if_neg hdepth, run_note]
    exact hresult

/-- A letter in so many groups that no bracket more is allowed is read from its text. -/
theorem Node.ofText_grouped : Node.ofText (grouped 126).toText = .ok (grouped 126) := by
  have hnesting : (grouped 126).nesting ≤ Json.maxNesting := by
    rw [nesting_grouped]
    exact Nat.le_refl 127
  rw [ofText_toText_eq, if_pos hnesting]

/-- For every smaller limit there is a tree that can be read and is always too deep. -/
theorem exists_ofText_isTooDeep {cfg : Config} (hlimit : cfg.maxDepth < 127) :
    ∃ text root, Node.ofText text = .ok root ∧
      ∀ (src : Source σ) (s : σ), ((sample cfg root).run src s).IsTooDeep := by
  refine ⟨(Node.grouped 126).toText, .grouped 126, Node.ofText_grouped, fun src s => ?_⟩
  have hdeep : cfg.maxDepth ≤ 0 + 126 := by omega
  obtain ⟨offset, limit, hresult⟩ := isTooDeep_emit_grouped hdeep src [] { } s
  refine ⟨offset, limit, ?_⟩
  rw [sample, run_bind, Outcome.andThen, hresult]

end Grouped

/-- Trees that are read from texts do not meet the limit on nesting, if it is at least the limit on
the nesting of texts, as the usual limit is. None of any number of samples in a row, from any
source, fails because a node is too deep, and nor does a run of the program unless it is given a
smaller limit. -/
theorem not_isTooDeep_of_ofText {text : String} {root : Node} (h : Node.ofText text = .ok root) :
    (∀ (σ : Type) (src : Source σ) (cfg : Config), 127 ≤ cfg.maxDepth →
      ∀ n s, ∀ o ∈ successive src cfg root n s, ¬o.IsTooDeep) ∧
    127 ≤ ({ } : Config).maxDepth ∧
    ∀ (args : List String) (o : CommandLine.Options) (inputs : CommandLine.Inputs)
      (entropy : UInt64), CommandLine.Command.parse args = .ok (.sample o) →
      inputs.named o = .ok text → (∀ limit ∈ o.maxDepth, 127 ≤ limit) →
        ∃ texts, CommandLine.respond args inputs entropy = .success (CommandLine.lines texts) ∨
          ∃ e, (∀ offset limit, e ≠ .tooDeep offset limit) ∧
            CommandLine.respond args inputs entropy =
              .failure (CommandLine.lines texts) (.noSample e) := by
  refine ⟨fun σ src cfg hlimit n s o => not_isTooDeep_of_mem_successive h src hlimit, by decide, ?_⟩
  intro args o inputs entropy hargs htext hlimit
  have hdepth : 127 ≤ o.maxDepth.getD 256 := by
    cases hmax : o.maxDepth with
    | none => decide
    | some limit => exact hlimit limit hmax
  rw [CommandLine.respond_eq_report hargs htext h, CommandLine.report]
  refine ⟨given (o.outcomes (o.seed.getD entropy) root), ?_⟩
  cases hfirst : firstError? (o.outcomes (o.seed.getD entropy) root) with
  | none => exact .inl rfl
  | some e =>
    refine .inr ⟨e, ?_, rfl⟩
    rintro offset limit rfl
    obtain ⟨x, hx, hresult⟩ := exists_mem_of_firstError? hfirst
    exact not_isTooDeep_of_mem_successive h Source.seeded hdepth hx ⟨offset, limit, hresult⟩

/-- The most nested of the letters in groups that can be read is not too deep for the least of these
limits. -/
theorem not_isTooDeep_of_ofText_grouped :
    let root := Node.grouped 126
    Node.ofText root.toText = .ok root ∧
      ∀ o ∈ successive Source.highest { maxDepth := 127 } root 3 (), ¬o.IsTooDeep := by
  intro root
  have hread : Node.ofText root.toText = .ok root := Node.ofText_grouped
  obtain ⟨hsamples, -⟩ := not_isTooDeep_of_ofText hread
  exact ⟨hread, hsamples Unit Source.highest { maxDepth := 127 } (Nat.le_refl 127) 3 ()⟩

end PatternSampler
