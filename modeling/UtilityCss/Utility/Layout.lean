import UtilityCss.Utility.Rule

/-!
Utilities for boxes: display, position, overflow, grids and flexible boxes.
-/
namespace UtilityCss.Utility

def boxTable : List (String × String × String) :=
  [("block", "display", "block"), ("inline-block", "display", "inline-block"),
    ("inline", "display", "inline"), ("flex", "display", "flex"),
    ("inline-flex", "display", "inline-flex"), ("grid", "display", "grid"),
    ("inline-grid", "display", "inline-grid"), ("table", "display", "table"),
    ("contents", "display", "contents"), ("hidden", "display", "none"),
    ("static", "position", "static"), ("fixed", "position", "fixed"),
    ("absolute", "position", "absolute"), ("relative", "position", "relative"),
    ("sticky", "position", "sticky"), ("visible", "visibility", "visible"),
    ("invisible", "visibility", "hidden"), ("collapse", "visibility", "collapse"),
    ("box-border", "box-sizing", "border-box"), ("box-content", "box-sizing", "content-box"),
    ("overflow-auto", "overflow", "auto"), ("overflow-hidden", "overflow", "hidden"),
    ("overflow-clip", "overflow", "clip"), ("overflow-visible", "overflow", "visible"),
    ("overflow-scroll", "overflow", "scroll"), ("overflow-x-auto", "overflow-x", "auto"),
    ("overflow-x-hidden", "overflow-x", "hidden"), ("overflow-x-scroll", "overflow-x", "scroll"),
    ("overflow-y-auto", "overflow-y", "auto"), ("overflow-y-hidden", "overflow-y", "hidden"),
    ("overflow-y-scroll", "overflow-y", "scroll"),
    ("pointer-events-none", "pointer-events", "none"),
    ("pointer-events-auto", "pointer-events", "auto"), ("select-none", "user-select", "none"),
    ("select-text", "user-select", "text"), ("select-all", "user-select", "all"),
    ("cursor-pointer", "cursor", "pointer"), ("cursor-default", "cursor", "default"),
    ("cursor-not-allowed", "cursor", "not-allowed"),
    ("grid-cols-none", "grid-template-columns", "none"),
    ("grid-cols-subgrid", "grid-template-columns", "subgrid"),
    ("col-span-full", "grid-column", "1 / -1"), ("order-first", "order", "calc(-infinity)"),
    ("order-last", "order", "calc(infinity)"), ("order-none", "order", "0"),
    ("z-auto", "z-index", "auto"), ("aspect-auto", "aspect-ratio", "auto"),
    ("aspect-square", "aspect-ratio", "1 / 1"),
    ("aspect-video", "aspect-ratio", "var(--aspect-video, 16 / 9)")]

def flexTable : List (String × String × String) :=
  [("flex-row", "flex-direction", "row"), ("flex-row-reverse", "flex-direction", "row-reverse"),
    ("flex-col", "flex-direction", "column"),
    ("flex-col-reverse", "flex-direction", "column-reverse"), ("flex-wrap", "flex-wrap", "wrap"),
    ("flex-wrap-reverse", "flex-wrap", "wrap-reverse"), ("flex-nowrap", "flex-wrap", "nowrap"),
    ("flex-1", "flex", "1"), ("flex-auto", "flex", "auto"), ("flex-initial", "flex", "0 auto"),
    ("flex-none", "flex", "none"), ("grow", "flex-grow", "1"), ("grow-0", "flex-grow", "0"),
    ("shrink", "flex-shrink", "1"), ("shrink-0", "flex-shrink", "0"),
    ("items-start", "align-items", "flex-start"), ("items-end", "align-items", "flex-end"),
    ("items-center", "align-items", "center"), ("items-baseline", "align-items", "baseline"),
    ("items-stretch", "align-items", "stretch"),
    ("justify-start", "justify-content", "flex-start"),
    ("justify-end", "justify-content", "flex-end"),
    ("justify-center", "justify-content", "center"),
    ("justify-between", "justify-content", "space-between"),
    ("justify-around", "justify-content", "space-around"),
    ("justify-evenly", "justify-content", "space-evenly"), ("self-auto", "align-self", "auto"),
    ("self-start", "align-self", "flex-start"), ("self-end", "align-self", "flex-end"),
    ("self-center", "align-self", "center"), ("self-stretch", "align-self", "stretch")]

def insets : List (String × String) :=
  [("inset", "inset"), ("inset-x", "inset-inline"), ("inset-y", "inset-block"), ("top", "top"),
    ("right", "right"), ("bottom", "bottom"), ("left", "left")]

def insetUtilities : List (String × Utility) :=
  insets.flatMap fun (name, property) =>
    [(name ++ "-auto", fixed [(property, "auto")]), (name ++ "-full", fixed [(property, "100%")]),
      (name, valued
        { spaces := ["--inset", "--spacing"], bare := spacingValue, negative := true,
          fractions := true }
        (declareAll [property]))]

def ratioValue : UtilityValue → Theme → Option String
  | .fraction s, _ => if isWholeFraction s then some s else none
  | _, _ => none

def gridUtilities : List (String × Utility) :=
  [("z", valued { spaces := ["--z-index"], bare := wholeValue id, negative := true }
      (declareAll ["z-index"])),
    ("order", valued { spaces := ["--order"], bare := wholeValue id, negative := true }
      (declareAll ["order"])),
    ("grid-cols", valued
      { spaces := ["--grid-template-columns"]
        bare := wholeValue fun s => "repeat(" ++ s ++ ", minmax(0, 1fr))" }
      (declareAll ["grid-template-columns"])),
    ("col-span", valued { bare := wholeValue id }
      fun s => [.decl "grid-column" ("span " ++ s ++ " / span " ++ s)]),
    ("aspect", valued { spaces := ["--aspect"], bare := ratioValue } (declareAll ["aspect-ratio"]))]

def layout : List (String × Utility) :=
  fixedTable boxTable ++ insetUtilities ++ gridUtilities ++ fixedTable flexTable

end UtilityCss.Utility
