import UtilityCss.Text.Ident
import UtilityCss.Value.DataType
import UtilityCss.Variant.Negate

/-!
The variants that every design system has. Their order here is their order in the output.
-/
namespace UtilityCss

def Node.wrapContent (node : Node) (wrap : List Node → Node) : Option Node :=
  node.mapChildren? fun content => [wrap content]

mutual

/-- Change the selectors of the style rules that are reached through at-rules; a style rule inside
another one cannot be expressed. -/
def Node.mapSelectors? (f : String → String) (inRule : Bool) : Node → Option Node
  | .rule selector nodes =>
    if inRule then none else (mapAllSelectors? f true nodes).map (Node.rule (f selector))
  | .atRule name params nodes => (mapAllSelectors? f inRule nodes).map (Node.atRule name params)
  | .context entries nodes => some (.context entries nodes)
  | .atRoot nodes => some (.atRoot nodes)
  | .declaration property value important => some (.declaration property value important)
  | .comment text => some (.comment text)

def mapAllSelectors? (f : String → String) (inRule : Bool) : List Node → Option (List Node)
  | [] => some []
  | n :: ns => do
    let n ← n.mapSelectors? f inRule
    let ns ← mapAllSelectors? f inRule ns
    return n :: ns

end

mutual

def Node.reachesRule : Node → Bool
  | .rule .. => true
  | .atRule _ _ nodes => anyReachesRule nodes
  | _ => false

def anyReachesRule : List Node → Bool
  | [] => false
  | n :: ns => n.reachesRule || anyReachesRule ns

end

/-- Change the selectors that an inner variant made; there has to be one. -/
def mapMadeSelectors? (f : String → String) (node : Node) : Option Node :=
  if node.reachesRule then node.mapSelectors? f false else none

def Variant.plainValue? : Variant → Option VariantValue
  | .functional _ value none => value
  | _ => none

/-- Quote the value of an attribute that is compared; a flag behind it stays outside of the quotes.
-/
def quoteAttribute (s : String) : String :=
  match Text.splitOnce? '=' s with
  | none => s
  | some (name, value) =>
    if Text.startsWithAny ['"', '\''] value then s
    else
      match ["i", "I", "s", "S"].findSome? fun flag =>
        (Text.stripEnd? (" " ++ flag) value).map fun value => (value, flag) with
      | some (value, flag) => name ++ "=\"" ++ value ++ "\" " ++ flag
      | none => name ++ "=\"" ++ value ++ "\""

def relational (mark relation : String) : VariantApply := fun node variant theme =>
  match variant with
  | .compound _ modifier inner =>
    if inner.isRelative then none
    else
      let start := match theme.keyPrefix with
        | some p => p ++ "\\:"
        | none => ""
      let label := match modifier with
        | some m => "\\/" ++ Text.escape m.text
        | none => ""
      let target := ":where(." ++ start ++ mark ++ label ++ ")"
      mapMadeSelectors? (fun selector =>
        let selector := Text.replaceChar '&' target selector
        let selector :=
          if 1 < (Text.segment ',' selector).length then ":is(" ++ selector ++ ")" else selector
        "&:is(" ++ selector ++ relation ++ ")") node
  | _ => none

def hasInside : VariantApply := fun node variant _ =>
  if variant.modifier?.isSome then none
  else mapMadeSelectors? (fun selector => "&:has(" ++ Text.replaceChar '&' "*" selector ++ ")") node

def attributeTest (name : String) (named : String → String) :
    VariantApply := fun node variant _ => do
  let condition := match ← variant.plainValue? with
    | .arbitrary s => quoteAttribute s
    | .named s => named s
  node.wrapContent (Node.rule ("&[" ++ name ++ "-" ++ condition ++ "]"))

def counting (pseudo : String) : VariantApply := fun node variant _ => do
  let value ← match ← variant.plainValue? with
    | .arbitrary s => some s
    | .named s => if Value.isPositiveInteger s then some s else none
  node.wrapContent (Node.rule ("&:" ++ pseudo ++ "(" ++ value ++ ")"))

def supportsQuery (query : String) : String :=
  let isCall := (Text.splitOnce? '(' query).any fun (name, _) =>
    !name.isEmpty && name.toList.all fun c => c.isAlphanum || c == '-'
  if isCall then query
  else
    let query := if Text.hasChar ':' query then query else query ++ ": var(--tw)"
    if Text.startsWith "(" query && Text.endsWith ")" query then query else "(" ++ query ++ ")"

def supports : VariantApply := fun node variant _ => do
  let value ← variant.plainValue?
  node.wrapContent (Node.atRule "supports" (supportsQuery value.text))

def breakpointKey? : Variant → Option String
  | .static root => some root
  | .functional _ value none => value.map VariantValue.text
  | _ => none

def breakpointValue? (variant : Variant) (theme : Theme) : Option String :=
  match variant.plainValue? with
  | some (.arbitrary s) => some s
  | _ => theme.resolveValue? (breakpointKey? variant) ["--breakpoint"]

def widthQuery (relation : String) : VariantApply := fun node variant theme => do
  let value ← breakpointValue? variant theme
  node.wrapContent (Node.atRule "media" ("(width " ++ relation ++ " " ++ value ++ ")"))

/-- Breakpoints of the theme in their order there, other widths behind them by text. -/
def compareBreakpoints (descending : Bool) : VariantCompare := fun a b theme =>
  let keys := theme.suffixes "--breakpoint"
  let key (v : Variant) : String := (breakpointKey? v).getD ""
  let byWidth := match keys.idxOf? (key a), keys.idxOf? (key b) with
    | some i, some j => if descending then compare j i else compare i j
    | some _, none => .lt
    | none, some _ => .gt
    | none, none => compare (key a) (key b)
  byWidth.then (compareOptions compare a.root? b.root?)

def pseudoClasses : List (String × String) :=
  [("first", "&:first-child"), ("last", "&:last-child"), ("only", "&:only-child"),
    ("odd", "&:nth-child(odd)"), ("even", "&:nth-child(even)"),
    ("first-of-type", "&:first-of-type"), ("last-of-type", "&:last-of-type"),
    ("only-of-type", "&:only-of-type"), ("visited", "&:visited"), ("target", "&:target"),
    ("open", "&:is([open], :popover-open)"), ("default", "&:default"), ("checked", "&:checked"),
    ("indeterminate", "&:indeterminate"), ("placeholder-shown", "&:placeholder-shown"),
    ("autofill", "&:autofill"), ("optional", "&:optional"), ("required", "&:required"),
    ("valid", "&:valid"), ("invalid", "&:invalid"), ("in-range", "&:in-range"),
    ("out-of-range", "&:out-of-range"), ("read-only", "&:read-only"), ("empty", "&:empty"),
    ("focus-within", "&:focus-within")]

def interactiveClasses : List (String × String) :=
  [("focus", "&:focus"), ("focus-visible", "&:focus-visible"), ("active", "&:active"),
    ("enabled", "&:enabled"), ("disabled", "&:disabled"), ("inert", "&:is([inert], [inert] *)")]

def pseudoElements : List (String × List String) :=
  [("first-letter", ["&::first-letter"]), ("first-line", ["&::first-line"]),
    ("marker", ["& *::marker", "&::marker"]), ("selection", ["& *::selection", "&::selection"]),
    ("file", ["&::file-selector-button"]), ("placeholder", ["&::placeholder"]),
    ("backdrop", ["&::backdrop"])]

def countingClasses : List (String × String) :=
  [("nth", "nth-child"), ("nth-last", "nth-last-child"), ("nth-of-type", "nth-of-type"),
    ("nth-last-of-type", "nth-last-of-type")]

def preferenceQueries : List (String × String) :=
  [("motion-safe", "@media (prefers-reduced-motion: no-preference)"),
    ("motion-reduce", "@media (prefers-reduced-motion: reduce)"),
    ("contrast-more", "@media (prefers-contrast: more)"),
    ("contrast-less", "@media (prefers-contrast: less)")]

def environmentQueries : List (String × String) :=
  [("portrait", "@media (orientation: portrait)"), ("landscape", "@media (orientation: landscape)"),
    ("ltr", "&:where(:dir(ltr), [dir=\"ltr\"], [dir=\"ltr\"] *)"),
    ("rtl", "&:where(:dir(rtl), [dir=\"rtl\"], [dir=\"rtl\"] *)"),
    ("dark", "@media (prefers-color-scheme: dark)"), ("starting", "@starting-style"),
    ("print", "@media print"), ("forced-colors", "@media (forced-colors: active)")]

namespace VariantRegistry

def addSelectors (r : VariantRegistry) (table : List (String × String)) : VariantRegistry :=
  table.foldl (fun r (name, selector) => r.selectors name [selector]) r

def contentElement (selector : String) : VariantApply := fun node _ _ =>
  node.wrapContent fun content => .rule selector (.decl "content" "var(--tw-content)" :: content)

def hover : VariantApply := fun node _ _ =>
  node.wrapContent fun content => .rule "&:hover" [.atRule "media" "(hover: hover)" content]

/-- Upper bounds from wide to narrow, then lower bounds from narrow to wide. -/
def addBreakpoints (r : VariantRegistry) (theme : Theme) : VariantRegistry :=
  let query : Compounds := { atRules := true }
  let r := r.group (some (compareBreakpoints true)) fun r =>
    r.functional "max" (widthQuery "<") query
  r.group (some (compareBreakpoints false)) fun r =>
    let r := (theme.suffixes "--breakpoint").foldl
      (fun r name => r.static name (widthQuery ">=") query) r
    r.functional "min" (widthQuery ">=") query

def builtin (theme : Theme) : VariantRegistry :=
  let rule : Compounds := { styleRules := true }
  let r : VariantRegistry := {}
  let r := r.static "*" (wrapIn [":where(& > *)"]) .never
  let r := r.static "**" (wrapIn [":where(& *)"]) .never
  let r := r.compound "not" .both negate .both
  let r := r.compound "group" rule (relational "group" " *") rule
  let r := r.compound "peer" rule (relational "peer" " ~ *") rule
  let r := pseudoElements.foldl (fun r (name, list) => r.selectors name list) r
  let r := r.static "before" (contentElement "&::before") .never
  let r := r.static "after" (contentElement "&::after") .never
  let r := r.addSelectors pseudoClasses
  let r := r.static "hover" hover rule
  let r := r.addSelectors interactiveClasses
  let r := r.compound "has" rule hasInside rule
  let r := r.functional "aria" (attributeTest "aria" fun s => s ++ "=\"true\"") rule
  let r := r.functional "data" (attributeTest "data" id) rule
  let r := countingClasses.foldl
    (fun r (name, pseudo) => r.functional name (counting pseudo) rule) r
  let r := r.functional "supports" supports { atRules := true }
  let r := r.addSelectors preferenceQueries
  let r := r.addBreakpoints theme
  r.addSelectors environmentQueries

end VariantRegistry

end UtilityCss
