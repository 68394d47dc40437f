import UtilityCss.Utility.Rule

/-!
Utilities for text.
-/
namespace UtilityCss.Utility

def decorationTable : List (String × String × String) :=
  [("italic", "font-style", "italic"), ("not-italic", "font-style", "normal"),
    ("underline", "text-decoration-line", "underline"),
    ("overline", "text-decoration-line", "overline"),
    ("line-through", "text-decoration-line", "line-through"),
    ("no-underline", "text-decoration-line", "none"),
    ("uppercase", "text-transform", "uppercase"), ("lowercase", "text-transform", "lowercase"),
    ("capitalize", "text-transform", "capitalize"), ("normal-case", "text-transform", "none")]

def alignmentTable : List (String × String × String) :=
  [("text-left", "text-align", "left"), ("text-center", "text-align", "center"),
    ("text-right", "text-align", "right"), ("text-justify", "text-align", "justify"),
    ("whitespace-normal", "white-space", "normal"),
    ("whitespace-nowrap", "white-space", "nowrap"), ("whitespace-pre", "white-space", "pre"),
    ("leading-none", "line-height", "1")]

def fontSize (size : String) (lineHeight : Option String) (modifier : Option Modifier)
    (theme : Theme) : Option (List Node) := do
  let lineHeight ← match modifier with
    | none => some lineHeight
    | some (.arbitrary s) => some (some s)
    | some (.named s) =>
      ((theme.resolve? (some s) ["--leading"]).or (spacingValue (.named s) theme)).map some
  return .decl "font-size" size :: (lineHeight.map (.decl "line-height")).toList

def fontTypes : List DataType :=
  [.number, .genericName, .familyName]

def font : Utility :=
  { kind := .functional
    types := fontTypes
    resolve := fun c theme =>
      if c.negative || c.modifier?.isSome then none
      else match c.value? with
        | some (.arbitrary s given) =>
          if valueType? s given fontTypes = some .number then some [.decl "font-weight" s]
          else some [.decl "font-family" s]
        | some (.named s) =>
          match theme.resolve? (some s) ["--font"] with
          | some family => some [.decl "font-family" family]
          | none => (theme.resolve? (some s) ["--font-weight"]).map fun w => [.decl "font-weight" w]
        | _ => none }

def textTypes : List DataType :=
  [.color, .length, .percentage, .absoluteSize, .relativeSize]

def text : Utility :=
  { kind := .functional
    types := textTypes
    resolve := fun c theme =>
      let colored (color : String) : Option (List Node) :=
        (asColor color c.modifier? theme).map fun color => [.decl "color" color]
      if c.negative then none
      else match c.value? with
        | some (.arbitrary s given) =>
          match valueType? s given textTypes with
          | some .length | some .percentage | some .absoluteSize | some .relativeSize =>
            fontSize s none c.modifier? theme
          | _ => colored s
        | some (.named s) =>
          match theme.resolve? (some s) ["--text-color", "--color"] with
          | some color => colored color
          | none => do
            let (size, nested) ← theme.resolveWith? (some s) ["--text"] ["--line-height"]
            fontSize size (nested.head?.map Prod.snd) c.modifier? theme
        | _ => none }

def content : Utility :=
  { kind := .functional
    resolve := fun c _ =>
      match c.value? with
      | some (.arbitrary s _) =>
        if c.negative || c.modifier?.isSome then none
        else some [.decl "--tw-content" s, .decl "content" "var(--tw-content)"]
      | _ => none }

def typography : List (String × Utility) :=
  fixedTable decorationTable ++
  [("truncate", fixed
    [("overflow", "hidden"), ("text-overflow", "ellipsis"), ("white-space", "nowrap")])] ++
  fixedTable alignmentTable ++
  [("content-none", fixed [("--tw-content", "none"), ("content", "none")]),
    ("leading", valued { spaces := ["--leading"], bare := spacingValue }
      (declareAll ["line-height"])),
    ("tracking",
      valued { spaces := ["--tracking"], negative := true } (declareAll ["letter-spacing"])),
    ("font", font), ("text", text), ("content", content)]

end UtilityCss.Utility
