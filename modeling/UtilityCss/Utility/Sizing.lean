import UtilityCss.Utility.Rule

/-!
Utilities for distances and sizes.
-/
namespace UtilityCss.Utility

def paddings : List (String × String) :=
  [("p", "padding"), ("px", "padding-inline"), ("py", "padding-block"), ("pt", "padding-top"),
    ("pr", "padding-right"), ("pb", "padding-bottom"), ("pl", "padding-left")]

def margins : List (String × String) :=
  [("m", "margin"), ("mx", "margin-inline"), ("my", "margin-block"), ("mt", "margin-top"),
    ("mr", "margin-right"), ("mb", "margin-bottom"), ("ml", "margin-left")]

def gaps : List (String × String) :=
  [("gap", "gap"), ("gap-x", "column-gap"), ("gap-y", "row-gap")]

/-- A distance; only margins may be negative. -/
def distance (space property : String) (negative : Bool) : Utility :=
  valued { spaces := [space, "--spacing"], bare := spacingValue, negative } (declareAll [property])

def spacing : List (String × Utility) :=
  (paddings.map fun (name, property) => (name, distance "--padding" property false)) ++
  (margins.flatMap fun (name, property) =>
    [(name ++ "-auto", fixed [(property, "auto")]), (name, distance "--margin" property true)]) ++
  (gaps.map fun (name, property) => (name, distance "--gap" property false))

structure SizeRule where
  name : String
  properties : List String
  spaces : List String
  /-- the size of the screen, where it makes sense -/
  screen : Option String := none
  /-- an upper bound can be absent and is never automatic -/
  upperBound : Bool := false

def sizes : List SizeRule :=
  [{ name := "w", properties := ["width"], spaces := ["--width", "--spacing", "--container"]
     screen := some "100vw" },
    { name := "h", properties := ["height"], spaces := ["--height", "--spacing"]
      screen := some "100vh" },
    { name := "size", properties := ["width", "height"], spaces := ["--size", "--spacing"] },
    { name := "min-w", properties := ["min-width"]
      spaces := ["--min-width", "--spacing", "--container"] },
    { name := "max-w", properties := ["max-width"]
      spaces := ["--max-width", "--spacing", "--container"], upperBound := true },
    { name := "min-h", properties := ["min-height"], spaces := ["--min-height", "--spacing"]
      screen := some "100vh" },
    { name := "max-h", properties := ["max-height"], spaces := ["--max-height", "--spacing"]
      screen := some "100vh", upperBound := true }]

def SizeRule.keywords (rule : SizeRule) : List (String × String) :=
  [("full", "100%"), ("min", "min-content"), ("max", "max-content"), ("fit", "fit-content"),
    ("px", "1px"), if rule.upperBound then ("none", "none") else ("auto", "auto")] ++
  (rule.screen.map fun value => ("screen", value)).toList

def SizeRule.utilities (rule : SizeRule) : List (String × Utility) :=
  (rule.keywords.map fun (suffix, value) =>
    (rule.name ++ "-" ++ suffix, fixed (rule.properties.map fun property => (property, value)))) ++
  [(rule.name, valued { spaces := rule.spaces, bare := spacingValue, fractions := true }
    (declareAll rule.properties))]

def sizing : List (String × Utility) :=
  sizes.flatMap SizeRule.utilities

end UtilityCss.Utility
