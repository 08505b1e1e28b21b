import PatternSampler.Sample.Emit

/-!
# Samples in a row

Several samples of one pattern are drawn from one source: each goes on from the state that the one
before has left. `successive` goes on after an error, `stream` stops at the first.
-/

namespace PatternSampler

variable {σ : Type}

/-- The outcomes of a number of samples in a row. -/
def successive (src : Source σ) (cfg : Config) (node : Node) : Nat → σ → List (Outcome σ String)
  | 0, _ => []
  | n + 1, s =>
    let o := (sample cfg node).run src s
    o :: successive src cfg node n o.state

/-- A number of samples in a row, up to the first error, in front of some earlier ones that are
given with the latest first. -/
def streamFrom (src : Source σ) (cfg : Config) (node : Node) (earlier : List String) :
    Nat → σ → List String × Option SampleError
  | 0, _ => (earlier.reverse, none)
  | n + 1, s =>
    let o := (sample cfg node).run src s
    match o.result with
    | .ok text => streamFrom src cfg node (text :: earlier) n o.state
    | .error e => (earlier.reverse, some e)

/-- A number of samples in a row, up to the first error, and that error. -/
def stream (src : Source σ) (cfg : Config) (node : Node) (n : Nat) (s : σ) :
    List String × Option SampleError :=
  streamFrom src cfg node [] n s

end PatternSampler
