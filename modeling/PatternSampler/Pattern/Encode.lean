import PatternSampler.Json.Printer
import PatternSampler.Pattern.Tag

/-!
# Pattern trees as JSON

A node becomes an object with its offset, its text, the name of its kind, and then the fields of
its kind. No field is left out, whatever its value.
-/

namespace PatternSampler.Node

/-- The members that every node has. -/
def heading (n : Node) : List (String × Json) :=
  [("offset", .integer n.offset.toNat), ("text", .string n.text), ("type", .string n.typeName)]

/-- An upper bound, or null where there is none. -/
def upperBound : Option Int64 → Json
  | none => .null
  | some max => .integer max.toInt

mutual

/-- The value that describes a node. -/
def toJson : Node → Json
  | n@(alternate _ l r) => .object (n.heading ++ [("left", l.toJson), ("right", r.toJson)])
  | n@(sequence _ b) => .object (n.heading ++ [("body", .array (toItems b))])
  | n@(group _ _ b) => .object (n.heading ++ [("body", b.toJson)])
  | n@(quantified _ b q) => .object (n.heading ++ [("body", b.toJson), ("quantifier", q.toJson)])
  | n@(quantifier _ bounds greedy) =>
    .object (n.heading ++ [("min", .integer bounds.min.toInt), ("max", upperBound bounds.max),
      ("greedy", .bool greedy)])
  | n@(charset _ b i) =>
    .object (n.heading ++ [("body", .array (toItems b)), ("invert", .bool i)])
  | n@(range _ a b) => .object (n.heading ++ [("start", a.toJson), ("end", b.toJson)])
  | n@(literal _ c e) =>
    .object (n.heading ++ [("body", .string c.toString), ("escaped", .bool e)])
  | n@(numeric _ _ c) => .object (n.heading ++ [("code", .string c)])
  | n@(backReference _ c) => .object (n.heading ++ [("code", .integer c.toNat)])
  | n@(control _ c) => .object (n.heading ++ [("code", .string c.toString)])
  | n@(token _ _) | n@(unknown _) => .object n.heading

/-- The values that describe some nodes. -/
def toItems : List Node → List Json
  | [] => []
  | n :: ns => n.toJson :: toItems ns

end

/-- The compact text of a node. -/
def toText (n : Node) : String := n.toJson.render

end PatternSampler.Node
