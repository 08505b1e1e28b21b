import PatternSampler.Json.Basic
import PatternSampler.Json.Text

/-!
# Writing JSON

The compact text of a value has no blanks outside strings and no escapes that are not needed.
-/

namespace PatternSampler.Json

mutual

/-- The compact text of a value. -/
def write : Json → List Char
  | null => "null".toList
  | bool b => (if b then "true" else "false").toList
  | integer n => (toString n).toList
  | float x => (floatLayout.write x).toList
  | string s => Text.write s
  | array items => '[' :: writeItems items ++ [']']
  | object members => '\x7b' :: writeMembers members ++ ['\x7d']

/-- The items of an array, separated by commas. -/
def writeItems : List Json → List Char
  | [] => []
  | [j] => j.write
  | j :: js => j.write ++ ',' :: writeItems js

/-- The members of an object, separated by commas. -/
def writeMembers : List (String × Json) → List Char
  | [] => []
  | [(name, j)] => Text.write name ++ ':' :: j.write
  | (name, j) :: ms => Text.write name ++ ':' :: j.write ++ ',' :: writeMembers ms

end

/-- The compact text of a value, as one string. -/
def render (j : Json) : String :=
  String.ofList j.write

end PatternSampler.Json
