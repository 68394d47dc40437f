/-!
The order of properties in the output.
-/
namespace UtilityCss

def propertyOrder : List String :=
  ["container-type", "pointer-events", "visibility", "position", "inset", "inset-inline",
    "inset-block", "inset-inline-start", "inset-inline-end", "top", "right", "bottom", "left",
    "isolation", "z-index", "order", "grid-column", "grid-column-start", "grid-column-end",
    "grid-row", "grid-row-start", "grid-row-end", "float", "clear", "box-sizing", "margin",
    "margin-inline", "margin-block", "margin-inline-start", "margin-inline-end", "margin-top",
    "margin-right", "margin-bottom", "margin-left", "display", "field-sizing", "aspect-ratio",
    "height", "max-height", "min-height", "width", "max-width", "min-width", "flex",
    "flex-shrink", "flex-grow", "flex-basis", "table-layout", "caption-side", "border-collapse",
    "border-spacing", "transform-origin", "translate", "scale", "rotate", "transform",
    "animation", "cursor", "touch-action", "resize", "scroll-snap-type", "scroll-snap-align",
    "scroll-margin", "scroll-padding", "list-style-position", "list-style-type",
    "list-style-image", "appearance", "columns", "break-before", "break-inside", "break-after",
    "grid-auto-columns", "grid-auto-flow", "grid-auto-rows", "grid-template-columns",
    "grid-template-rows", "flex-direction", "flex-wrap", "place-content", "place-items",
    "align-content", "align-items", "justify-content", "justify-items", "gap", "column-gap",
    "row-gap", "divide-x-width", "divide-y-width", "divide-style", "divide-color", "place-self",
    "align-self", "justify-self", "overflow", "overflow-x", "overflow-y", "overscroll-behavior",
    "scroll-behavior", "border-radius", "border-width", "border-style", "border-color",
    "background-color", "background-image", "background-size", "background-attachment",
    "background-clip", "background-position", "background-repeat", "background-origin", "fill",
    "stroke", "stroke-width", "object-fit", "object-position", "padding", "padding-inline",
    "padding-block", "padding-inline-start", "padding-inline-end", "padding-top", "padding-right",
    "padding-bottom", "padding-left", "text-align", "text-indent", "vertical-align",
    "font-family", "font-size", "line-height", "font-weight", "letter-spacing", "text-wrap",
    "overflow-wrap", "word-break", "text-overflow", "hyphens", "white-space", "color",
    "text-transform", "font-style", "font-stretch", "font-variant-numeric",
    "text-decoration-line", "text-decoration-color", "text-decoration-style",
    "text-decoration-thickness", "text-underline-offset", "-webkit-font-smoothing",
    "placeholder-color", "caret-color", "accent-color", "color-scheme", "opacity",
    "background-blend-mode", "mix-blend-mode", "box-shadow", "outline-style", "outline-width",
    "outline-offset", "outline-color", "filter", "backdrop-filter", "transition-property",
    "transition-behavior", "transition-delay", "transition-duration",
    "transition-timing-function", "will-change", "contain", "content", "forced-color-adjust",
    "user-select"]

def propertyIndex? (property : String) : Option Nat :=
  propertyOrder.idxOf? property

end UtilityCss
