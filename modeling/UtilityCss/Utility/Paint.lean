import UtilityCss.Utility.Rule

/-!
Utilities for colours, and for lines that have a colour and a width.
-/
namespace UtilityCss.Utility

def colorKeywords (name property : String) : List (String × Utility) :=
  [("inherit", "inherit"), ("current", "currentcolor"), ("transparent", "transparent")].map
    fun (suffix, value) => (name ++ "-" ++ suffix, fixed [(property, value)])

def backgroundTypes : List DataType :=
  [.image, .url, .color, .percentage, .position, .bgSize, .length]

def backgroundProperty? : Option DataType → Option String
  | some .image | some .url => some "background-image"
  | some .position | some .percentage => some "background-position"
  | some .bgSize | some .length => some "background-size"
  | _ => none

def background : Utility :=
  { kind := .functional
    types := backgroundTypes
    resolve := fun c theme =>
      let colored (color : String) : Option (List Node) :=
        (asColor color c.modifier? theme).map fun color => [.decl "background-color" color]
      if c.negative then none
      else match c.value? with
        | some (.arbitrary s given) =>
          match backgroundProperty? (valueType? s given backgroundTypes) with
          | some property => if c.modifier?.isSome then none else some [.decl property s]
          | none => colored s
        | some (.named s) =>
          (theme.resolve? (some s) ["--background-color", "--color"]).bind colored
        | _ => none }

def colored (space property : String) : Utility :=
  { kind := .functional
    types := [.color]
    resolve := fun c theme =>
      if c.negative then none
      else do
        let color ← match c.value? with
          | some (.arbitrary s _) => some s
          | some (.named s) => theme.resolve? (some s) [space, "--color"]
          | _ => none
        let color ← asColor color c.modifier? theme
        return [.decl property color] }

def colors : List (String × String × String) :=
  [("fill", "--fill", "fill"), ("decoration", "--text-decoration-color", "text-decoration-color"),
    ("accent", "--accent-color", "accent-color"), ("caret", "--caret-color", "caret-color")]

structure LineRule where
  name : String
  width : String
  color : String
  space : String
  /-- what is put behind a bare width -/
  unit : String := "px"

def lines : List LineRule :=
  [{ name := "border", width := "border-width", color := "border-color",
      space := "--border-color" },
    { name := "outline", width := "outline-width", color := "outline-color"
      space := "--outline-color" },
    { name := "stroke", width := "stroke-width", color := "stroke",
      space := "--stroke", unit := "" }]

def lineTypes : List DataType :=
  [.color, .lineWidth, .length, .number]

def LineRule.utility (rule : LineRule) : Utility :=
  { kind := .functional
    types := lineTypes
    resolve := fun c theme =>
      let colored (color : String) : Option (List Node) :=
        (asColor color c.modifier? theme).map fun color => [.decl rule.color color]
      let wide (width : String) : Option (List Node) :=
        if c.modifier?.isSome then none else some [.decl rule.width width]
      if c.negative then none
      else match c.value? with
        | some (.arbitrary s given) =>
          match valueType? s given lineTypes with
          | some .lineWidth | some .length | some .number => wide s
          | _ => colored s
        | some (.named s) =>
          match theme.resolve? (some s) [rule.space, "--color"] with
          | some color => colored color
          | none => if Value.isPositiveInteger s then wide (s ++ rule.unit) else none
        | _ => none }

def LineRule.utilities (rule : LineRule) : List (String × Utility) :=
  (rule.name, fixed [(rule.width, "1px")]) :: colorKeywords rule.name rule.color ++
    [(rule.name, rule.utility)]

def paint : List (String × Utility) :=
  ("bg", background) :: colorKeywords "bg" "background-color" ++
  (colors.flatMap fun (name, space, property) =>
    colorKeywords name property ++ [(name, colored space property)]) ++
  lines.flatMap LineRule.utilities

end UtilityCss.Utility
